import Retrace.Proofs.Stream.Phases

/-!
# Boundaries at an offset

Where the searches over IL offsets end in a stream that is in the order of its offsets. All of them
are answered by `countBefore`, the number of points that start before the target:

* `lastByOffset_eq` : a run that stops before the target ends on the last of these points, or on the
  first point of the stream if there are none;
* `firstByOffset_eq` : a run that starts at the target begins at the `boundaryIndex`, and nowhere if
  all points start before the target.

The boundary index is the count itself if some point starts at the target. If none does, the binary
phase cannot meet the target, and the boundary is where its halving lands: on the first point behind
the target or one point before that, as the number of points decides.
-/

namespace Retrace.Stream

/-- The points are in the order of their offsets. -/
def InOffsetOrder (points : Stream) : Prop := points.Pairwise fun p q => p.offset ≤ q.offset

instance (points : Stream) : Decidable points.InOffsetOrder :=
  inferInstanceAs (Decidable (points.Pairwise fun p q => p.offset ≤ q.offset))

/-- How many points start before an offset. -/
def countBefore (points : Stream) (target : Nat) : Nat :=
  points.countP fun p => p.offset < target

/-- Some point starts at the offset. -/
def StartsAt (points : Stream) (target : Nat) : Prop := ∃ p ∈ points, p.offset = target

instance (points : Stream) (target : Nat) : Decidable (points.StartsAt target) :=
  inferInstanceAs (Decidable (∃ p ∈ points, p.offset = target))

/-- The index that the boundary search at an offset ends on. -/
def boundaryIndex (points : Stream) (target : Nat) : Nat :=
  if points.StartsAt target then points.countBefore target
  else landing (points.countBefore target) points.length

/-- No more points are counted than there are. -/
theorem countBefore_le_length (points : Stream) (target : Nat) :
    points.countBefore target ≤ points.length :=
  List.countP_le_length

/-- A later offset has no fewer points in front of it. -/
theorem countBefore_mono (points : Stream) {s t : Nat} (h : s ≤ t) :
    points.countBefore s ≤ points.countBefore t := by
  refine List.countP_mono_left fun p _ hp => ?_
  simp only [decide_eq_true_eq] at hp ⊢
  omega

/-- None is counted if all start at the offset or behind it. -/
theorem countBefore_eq_zero_iff {points : Stream} {target : Nat} :
    points.countBefore target = 0 ↔ ∀ p ∈ points, target ≤ p.offset := by
  simp only [countBefore, List.countP_eq_zero, decide_eq_true_eq, Nat.not_lt]

/-- All are counted if all start in front of the offset. -/
theorem countBefore_eq_length_iff {points : Stream} {target : Nat} :
    points.countBefore target = points.length ↔ ∀ p ∈ points, p.offset < target := by
  simp only [countBefore, List.countP_eq_length, decide_eq_true_eq]

/-- Some are counted if one starts in front of the offset. -/
theorem countBefore_pos_iff {points : Stream} {target : Nat} :
    0 < points.countBefore target ↔ ∃ p ∈ points, p.offset < target := by
  simp only [countBefore, List.countP_pos_iff, decide_eq_true_eq]

/-- Not all are counted if one starts at the offset or behind it. -/
theorem countBefore_lt_length_iff {points : Stream} {target : Nat} :
    points.countBefore target < points.length ↔ ∃ p ∈ points, target ≤ p.offset := by
  have hle := points.countBefore_le_length target
  rw [Nat.lt_iff_le_and_ne, and_iff_right hle, Ne, countBefore_eq_length_iff]
  simp only [Classical.not_forall, Nat.not_lt, exists_prop]

/-- A point in front of the offset counts. -/
theorem countBefore_cons_of_lt {p : SequencePoint} {target : Nat} (rest : Stream)
    (h : p.offset < target) : countBefore (p :: rest) target = countBefore rest target + 1 := by
  rw [countBefore, countBefore, List.countP_cons_of_pos (by simpa using h)]

/-- In order, no point starts before a target that the first point does not start before. -/
theorem InOffsetOrder.countBefore_eq_zero {p : SequencePoint} {rest : Stream} {target : Nat}
    (h : InOffsetOrder (p :: rest)) (hle : target ≤ p.offset) :
    countBefore (p :: rest) target = 0 ∧ countBefore rest target = 0 := by
  obtain ⟨hp, -⟩ := List.pairwise_cons.1 h
  rw [countBefore_eq_zero_iff, countBefore_eq_zero_iff]
  refine ⟨fun q hq => ?_, fun q hq => Nat.le_trans hle (hp q hq)⟩
  rcases List.mem_cons.1 hq with rfl | hq
  · exact hle
  · exact Nat.le_trans hle (hp q hq)

/-- In order, the points that start before a target are the first ones. -/
theorem InOffsetOrder.lt_countBefore_iff {points : Stream} (h : points.InOffsetOrder) {i : Nat}
    {p : SequencePoint} (hp : points[i]? = some p) (target : Nat) :
    i < points.countBefore target ↔ p.offset < target := by
  refine (lt_countP_iff (h.imp fun {q r} hle => ?_) hp).trans decide_eq_true_iff
  simp only [decide_eq_true_eq]
  exact fun hr => Nat.lt_of_le_of_lt hle hr

/-- In order, later points start no earlier. -/
theorem InOffsetOrder.le_of_lt {points : Stream} (h : points.InOffsetOrder) {i j : Nat}
    {p q : SequencePoint} (hij : i < j) (hp : points[i]? = some p) (hq : points[j]? = some q) :
    p.offset ≤ q.offset := by
  obtain ⟨hi, rfl⟩ := List.getElem?_eq_some_iff.1 hp
  obtain ⟨hj, rfl⟩ := List.getElem?_eq_some_iff.1 hq
  exact List.pairwise_iff_getElem.1 h i j hi hj hij

/-! ## Turns at an offset -/

/-- The search goes on to later points from one in front of the target. -/
theorem offsetTurn_eq_later {target : Nat} {p : SequencePoint} :
    offsetTurn target p = .later ↔ p.offset < target := by
  unfold offsetTurn
  split
  · simp_all
  split <;> simp_all

/-- It goes on to earlier points from one behind the target. -/
theorem offsetTurn_eq_earlier {target : Nat} {p : SequencePoint} :
    offsetTurn target p = .earlier ↔ target < p.offset := by
  unfold offsetTurn
  split
  · simp only [reduceCtorEq, false_iff]
    omega
  split <;> simp_all

/-- It stops at a point that starts at the target. -/
theorem offsetTurn_eq_here {target : Nat} {p : SequencePoint} :
    offsetTurn target p = .here ↔ p.offset = target := by
  unfold offsetTurn
  split
  · simp only [reduceCtorEq, false_iff]
    omega
  split
  · simp only [reduceCtorEq, false_iff]
    omega
  · simp only [true_iff]
    omega

/-- In order, the target cuts the stream where the count says. -/
theorem InOffsetOrder.cut {points : Stream} (h : points.InOffsetOrder) (target : Nat) :
    Cut points (offsetTurn target) (points.countBefore target) where
  later_iff hp := offsetTurn_eq_later.trans (h.lt_countBefore_iff hp target).symm
  earlier_of_lt hij hp hq hturn := by
    have := h.le_of_lt hij hp hq
    rw [offsetTurn_eq_earlier] at hturn ⊢
    omega

/-! ## The boundary -/

/-- The search ends at the first point that is not in front of the target, or at the one before it. -/
theorem boundaryIndex_cases (points : Stream) (target : Nat) :
    points.boundaryIndex target = points.countBefore target ∨
      points.boundaryIndex target + 1 = points.countBefore target ∧
        points.countBefore target < points.length := by
  rw [boundaryIndex]
  split
  · exact Or.inl rfl
  · exact landing_cases (points.countBefore_le_length target)

/-- A target that some point starts at is found. -/
theorem StartsAt.boundaryIndex_eq {points : Stream} {target : Nat} (h : points.StartsAt target) :
    points.boundaryIndex target = points.countBefore target :=
  if_pos h

/-- An index with nothing but points behind the target after it, which is where the binary phase
ended, is the boundary index. -/
theorem InOffsetOrder.boundaryIndex_eq {points : Stream} (h : points.InOffsetOrder) {target m : Nat}
    {first current : SequencePoint}
    (hprobe : probe points (offsetTurn target) 0 points.length first = some ⟨m, current⟩)
    (le : m ≤ points.countBefore target) (above : EarlierFrom points (offsetTurn target) m) :
    points.boundaryIndex target = m := by
  rw [boundaryIndex]
  split
  · next hstarts =>
    obtain ⟨p, hp, hoff⟩ := hstarts
    obtain ⟨j, hj⟩ := List.mem_iff_getElem?.1 hp
    have hge : ¬ j < points.countBefore target := by
      rw [h.lt_countBefore_iff hj]
      omega
    have hjm : ¬ m < j := fun hlt => by
      have := offsetTurn_eq_earlier.1 (above j p (by omega) hj)
      omega
    omega
  · next hstarts =>
    have hmid := probe_middle (h.cut target)
      (fun p hp hhere => hstarts ⟨p, hp, offsetTurn_eq_here.1 hhere⟩) (by omega) hprobe
    rw [← natCast_landing (points.countBefore_le_length target)] at hmid
    exact (Int.natCast_inj.1 hmid).symm

/-- In order, this is what the search comes to. -/
theorem offsetBoundary_eq {points : Stream} (h : points.InOffsetOrder) (hne : points ≠ [])
    (target : Nat) : offsetBoundary points target = some (points.boundaryIndex target : Int) := by
  have hk := points.countBefore_le_length target
  obtain ⟨first, p, hprobe, hend, hwalk⟩ := boundary_eq_walk (h.cut target) hne hk
    (fun p => p.offset < target) (fun p => p.offset ≤ target) (fun p => p.offset < target)
  rw [offsetBoundary, hwalk]
  cases hend with
  | @met i p hp here =>
    -- on a point that starts at the target: the walk goes back over others that start there
    have hoff := offsetTurn_eq_here.1 here
    have hstarts : points.StartsAt target := ⟨p, List.mem_of_getElem? hp, hoff⟩
    have hle : ¬ i < points.countBefore target := by
      rw [h.lt_countBefore_iff hp]
      omega
    have hi := (List.getElem?_eq_some_iff.1 hp).1
    rw [if_neg (by simp [hoff]), hstarts.boundaryIndex_eq]
    refine walkEarlier_eq (by simp [hoff]) (by omega) (by omega) ?_ ?_
    · intro j q hj _ hq
      have := h.lt_countBefore_iff hq target
      simp only [decide_eq_false_iff_not]
      omega
    · intro q hpos hq
      have := h.lt_countBefore_iff hq target
      simp only [decide_eq_true_eq]
      omega
  | @behind m p hp later le above =>
    -- one behind a point in front of the target: the walk to later points stops at once
    have hoff := offsetTurn_eq_later.1 later
    have hm := (h.lt_countBefore_iff hp target).2 hoff
    rw [if_pos (by simp [hoff]), h.boundaryIndex_eq hprobe hm above]
    refine walkLater_eq (by simp only [decide_eq_true_eq]; omega) (Nat.le_refl _)
      (fun j q hlt hle _ => by omega) (Or.inr rfl) fun q hq => ?_
    have := offsetTurn_eq_earlier.1 (above (m + 2) q (by omega) hq)
    simp only [decide_eq_false_iff_not]
    omega
  | @ahead c m p hp earlier one_off ge le above =>
    -- one before a point behind the target: the walk to earlier points stops at once
    have hoff := offsetTurn_eq_earlier.1 earlier
    have hc := (List.getElem?_eq_some_iff.1 hp).1
    rw [if_neg (by simp only [decide_eq_true_eq]; omega), h.boundaryIndex_eq hprobe ge above]
    refine walkEarlier_eq (by simp only [decide_eq_false_iff_not]; omega) (Nat.le_refl _)
      (by omega) (fun j q hj hlt _ => by omega) fun q hpos hq => ?_
    have := (h.lt_countBefore_iff hq target).1 (by omega)
    simpa using this

/-! ## The two ends of a run -/

/-- A run that starts at an offset begins at the boundary index, unless all points start before
that offset. -/
theorem firstByOffset_eq {points : Stream} (h : points.InOffsetOrder) (hlen : 2 ≤ points.length)
    (start : Nat) :
    firstByOffset points start =
      if points.countBefore start = points.length then none
      else some (points.boundaryIndex start) := by
  have hcases := points.boundaryIndex_cases start
  have hle := points.countBefore_le_length start
  have hbound := offsetBoundary_eq h (by rintro rfl; simp at hlen) start
  obtain ⟨p, q, rest, rfl⟩ : ∃ p q rest, points = p :: q :: rest := by
    match points, hlen with
    | p :: q :: rest, _ => exact ⟨p, q, rest, rfl⟩
  simp only [firstByOffset, hbound, Option.bind_some, indexIn, Int.toNat_natCast]
  split
  · rw [if_neg (by omega)]
  · rw [if_pos (by omega)]

/-- A run that stops before an offset ends on the last point that starts before it. -/
theorem lastByOffset_eq {points : Stream} (h : points.InOffsetOrder) (hne : points ≠ [])
    (stop : Nat) : lastByOffset points stop = some (points.countBefore stop - 1) := by
  have hcases := points.boundaryIndex_cases stop
  have hle := points.countBefore_le_length stop
  have hbound := offsetBoundary_eq h hne stop
  match points, hne with
  | [p], _ =>
    simp only [List.length_cons, List.length_nil] at hle
    rw [lastByOffset]
    congr 1
    omega
  | p :: q :: rest, _ =>
    have hpos : 0 < (p :: q :: rest).length := by simp
    simp only [lastByOffset, hbound, Int.toNat_natCast]
    have hlt : min (boundaryIndex (p :: q :: rest) stop) ((p :: q :: rest).length - 1) <
        (p :: q :: rest).length := by omega
    have hfound := List.getElem?_eq_getElem hlt
    have hbefore := h.lt_countBefore_iff hfound stop
    rw [hfound]
    simp only [Option.some.injEq]
    split <;> omega

end Retrace.Stream
