import Retrace.Proofs.Stream.Offset
import Retrace.Stream.Alignment
import Retrace.Stream.Run

/-!
# The counterpart of a run

What `counterpart` takes from a stream in the order of its offsets, for a run over the offsets from
`start` up to `stop`:

* `within_suffix_counterpart` : all points that start in this range, and nothing else if one of them
  starts right at `start`;
* `counterpart_of_gap` : if no point starts in the range, either nothing or one neighbour of the gap.
  `Strays` tells which, by the number of points and the number of those in front of the gap;
* `counterpart_before_stop` : nothing that starts behind the range, unless all points do. Then the first
  of them is taken.

All follow from `counterpart_eq_run`, which names the two ends of the run that is taken.
-/

namespace Retrace.Stream

/-- The points that start at `start` or behind it, and before `stop`. -/
def within (points : Stream) (start stop : Nat) : Stream :=
  points.filter fun p => start ≤ p.offset ∧ p.offset < stop

/-! ## Runs by index -/

/-- Starting a run later takes its end. -/
theorem run_suffix_run (points : Stream) {i j : Nat} (h : i ≤ j) (stop : Nat) :
    run points j stop <:+ run points i stop := by
  have hdrop : run points j stop = (run points i stop).drop (j - i) := by
    rw [run, run, List.drop_take, List.drop_drop, show i + (j - i) = j from by omega,
      show stop - i - (j - i) = stop - j from by omega]
  rw [hdrop]
  exact List.drop_suffix _ _

/-- A run of one index is its point, if there is one. -/
theorem run_succ (points : Stream) (i : Nat) : run points i (i + 1) = points[i]?.toList := by
  rw [run, Nat.add_sub_cancel_left, List.take_one, List.head?_drop]

/-- A run in the bounds is as long as they say. -/
theorem length_run {points : Stream} {i stop : Nat} (h : stop ≤ points.length) :
    (run points i stop).length = stop - i := by
  rw [run, List.length_take, List.length_drop]
  omega

/-- Two runs that meet are one. -/
theorem run_append_run (points : Stream) {a b c : Nat} (hab : a ≤ b) (hbc : b ≤ c) :
    run points a b ++ run points b c = run points a c := by
  rw [run, run, run, show c - a = (b - a) + (c - b) from by omega, List.take_add, List.drop_drop,
    show a + (b - a) = b from by omega]

/-- A run that ends where it begins, or earlier, is empty. -/
theorem run_eq_nil (points : Stream) {i stop : Nat} (h : stop ≤ i) : run points i stop = [] := by
  rw [run, Nat.sub_eq_zero_of_le h, List.take_zero]

/-- A run is never longer than its bounds say. -/
theorem length_run_le (points : Stream) (i stop : Nat) : (run points i stop).length ≤ stop - i :=
  List.length_take_le _ _

/-- In order, the points that start in a range are a run, bounded by what starts before either end.
-/
theorem InOffsetOrder.within_eq_run {points : Stream} (h : points.InOffsetOrder) {start stop : Nat}
    (hle : start ≤ stop) :
    points.within start stop = run points (points.countBefore start) (points.countBefore stop) := by
  induction points with
  | nil => simp [within, run]
  | cons p rest ih =>
    have ih := ih (List.pairwise_cons.1 h).2
    by_cases hstart : p.offset < start
    · rw [countBefore_cons_of_lt rest hstart, countBefore_cons_of_lt rest (by omega), within,
        List.filter_cons_of_neg (by simp only [decide_eq_true_eq]; omega)]
      rw [run, List.drop_succ_cons, Nat.add_sub_add_right]
      exact ih
    · obtain ⟨hzero, hzero'⟩ := h.countBefore_eq_zero (Nat.not_lt.1 hstart)
      rw [hzero]
      rw [hzero'] at ih
      by_cases hstop : p.offset < stop
      · rw [countBefore_cons_of_lt rest hstop, within,
          List.filter_cons_of_pos (by simp only [decide_eq_true_eq]; omega)]
        exact congrArg (p :: ·) ih
      · obtain ⟨hnone, hnone'⟩ := h.countBefore_eq_zero (Nat.not_lt.1 hstop)
        rw [hnone, within, List.filter_cons_of_neg (by simp only [decide_eq_true_eq]; omega)]
        rw [hnone'] at ih
        exact ih

/-! ## The run that is taken -/

/-- The counterpart is the run between what both searches find. -/
theorem counterpart_eq_offsetBounds {needle : Stream} {start stop : Nat}
    (hneedle : needle.offsets? = some (start, stop)) (haystack : Stream) :
    counterpart needle haystack =
      match offsetBounds? haystack start stop with
      | some (first, stop) => run haystack first stop
      | none => [] := by
  unfold offsets? at hneedle
  unfold counterpart
  split
  · next head tail hhead htail =>
    rw [hhead, htail] at hneedle
    cases hneedle
    rfl
  · next hnone =>
    split at hneedle
    · next head tail hhead htail => exact absurd htail (hnone head tail hhead)
    · cases hneedle

/-- The only point of a stream is its own first and last one for every range. -/
theorem counterpart_singleton {needle : Stream} {start stop : Nat}
    (hneedle : needle.offsets? = some (start, stop)) (p : SequencePoint) :
    counterpart needle [p] = [p] := by
  rw [counterpart_eq_offsetBounds hneedle]
  rfl

/-- In order, what is taken from two or more points is the run from the boundary at `start` through
the last point that starts before `stop`. -/
theorem counterpart_eq_run {needle haystack : Stream} {start stop : Nat}
    (h : haystack.InOffsetOrder) (hlen : 2 ≤ haystack.length)
    (hneedle : needle.offsets? = some (start, stop)) :
    counterpart needle haystack =
      if haystack.countBefore start < haystack.length ∧
          haystack.boundaryIndex start ≤ haystack.countBefore stop - 1 then
        run haystack (haystack.boundaryIndex start) (haystack.countBefore stop - 1 + 1)
      else [] := by
  have hle := haystack.countBefore_le_length start
  rw [counterpart_eq_offsetBounds hneedle, offsetBounds?, firstByOffset_eq h hlen,
    lastByOffset_eq h (by rintro rfl; simp at hlen)]
  by_cases hall : haystack.countBefore start = haystack.length
  · rw [if_pos hall, if_neg (by omega)]
  · rw [if_neg hall]
    by_cases hbound : haystack.boundaryIndex start ≤ haystack.countBefore stop - 1
    · rw [if_pos ⟨by omega, hbound⟩]
      simp only [if_pos hbound]
    · rw [if_neg (fun hc => hbound hc.2)]
      simp only [if_neg hbound]

/-! ## What starts in the range -/

/-- A point that starts in a range is counted by its end and not by its start. -/
theorem StartsAt.countBefore_lt {points : Stream} {start stop : Nat} (h : points.InOffsetOrder)
    (hstarts : points.StartsAt start) (hlt : start < stop) :
    points.countBefore start < points.countBefore stop := by
  obtain ⟨p, hp, rfl⟩ := hstarts
  obtain ⟨i, hi⟩ := List.mem_iff_getElem?.1 hp
  have hstart := h.lt_countBefore_iff hi p.offset
  have hstop := h.lt_countBefore_iff hi stop
  omega

/-- In a stream without points nothing has a counterpart. -/
theorem counterpart_nil (needle : Stream) : counterpart needle [] = [] := by
  unfold counterpart
  split <;> rfl

/-- A range that ends where it begins, or earlier, has no points. -/
theorem within_eq_nil (points : Stream) {start stop : Nat} (h : stop ≤ start) :
    points.within start stop = [] := by
  refine List.filter_eq_nil_iff.2 fun p _ => ?_
  simp only [decide_eq_true_eq]
  omega

/-- Among several points the counterpart is what starts in the range, with at most one in front. -/
theorem exists_leading_of_two {needle haystack : Stream} {start stop : Nat}
    (h : haystack.InOffsetOrder) (hlen : 2 ≤ haystack.length)
    (hneedle : needle.offsets? = some (start, stop)) :
    ∃ leading : Stream, counterpart needle haystack = leading ++ haystack.within start stop ∧
      leading.length ≤ 1 := by
  have hcases := haystack.boundaryIndex_cases start
  have hle := haystack.countBefore_le_length stop
  rw [counterpart_eq_run h hlen hneedle]
  by_cases hsome : haystack.countBefore start < haystack.countBefore stop
  · have hlt : start < stop := Nat.lt_of_not_le fun hge => by
      have := haystack.countBefore_mono hge
      omega
    refine ⟨run haystack (haystack.boundaryIndex start) (haystack.countBefore start), ?_, ?_⟩
    · rw [if_pos (by omega), h.within_eq_run (Nat.le_of_lt hlt),
        show haystack.countBefore stop - 1 + 1 = haystack.countBefore stop from by omega,
        run_append_run haystack (by omega) (by omega)]
    · have := length_run_le haystack (haystack.boundaryIndex start) (haystack.countBefore start)
      omega
  · -- nothing starts in the range, so whatever is taken is in front of it
    have hnone : haystack.within start stop = [] := by
      rcases Nat.lt_or_ge start stop with hlt | hge
      · rw [h.within_eq_run (Nat.le_of_lt hlt), run_eq_nil haystack (by omega)]
      · exact within_eq_nil haystack hge
    rw [hnone]
    split
    · refine ⟨_, (List.append_nil _).symm, ?_⟩
      have := length_run_le haystack (haystack.boundaryIndex start) (haystack.countBefore stop - 1 + 1)
      omega
    · exact ⟨[], rfl, by simp⟩

/-- What is taken are the points that start in the range, behind at most one other point. -/
theorem InOffsetOrder.exists_leading {needle haystack : Stream} {start stop : Nat}
    (h : haystack.InOffsetOrder) (hneedle : needle.offsets? = some (start, stop)) :
    ∃ leading : Stream, counterpart needle haystack = leading ++ haystack.within start stop ∧
      leading.length ≤ 1 := by
  match haystack, h with
  | [], _ =>
    rw [counterpart_nil]
    exact ⟨[], rfl, by simp⟩
  | [p], _ =>
    rw [counterpart_singleton hneedle]
    by_cases hp : start ≤ p.offset ∧ p.offset < stop
    · rw [within, List.filter_cons_of_pos (by simpa using hp)]
      exact ⟨[], rfl, by simp⟩
    · rw [within, List.filter_cons_of_neg (by simpa using hp)]
      exact ⟨[p], rfl, by simp⟩
  | _ :: _ :: _, h => exact exists_leading_of_two h (by simp) hneedle

/-- The points that start in the range are the end of what is taken. -/
theorem within_suffix_counterpart_of_two {needle haystack : Stream} {start stop : Nat}
    (h : haystack.InOffsetOrder) (hlen : 2 ≤ haystack.length)
    (hneedle : needle.offsets? = some (start, stop)) :
    haystack.within start stop <:+ counterpart needle haystack := by
  obtain ⟨leading, htaken, -⟩ := exists_leading_of_two h hlen hneedle
  rw [htaken]
  exact List.suffix_append _ _

/-- If a point starts where the run does, nothing else is taken than what starts in the range. -/
theorem counterpart_eq_within_of_two {needle haystack : Stream} {start stop : Nat}
    (h : haystack.InOffsetOrder) (hlen : 2 ≤ haystack.length)
    (hneedle : needle.offsets? = some (start, stop)) (hlt : start < stop)
    (hstarts : haystack.StartsAt start) :
    counterpart needle haystack = haystack.within start stop := by
  have hcount := hstarts.countBefore_lt h hlt
  have hle := haystack.countBefore_le_length stop
  have hindex : haystack.boundaryIndex start = haystack.countBefore start := if_pos hstarts
  rw [h.within_eq_run (Nat.le_of_lt hlt), counterpart_eq_run h hlen hneedle, hindex,
    if_pos (by omega),
    show haystack.countBefore stop - 1 + 1 = haystack.countBefore stop from by omega]

/-- If a point starts where the run does, what starts in the range is all that is taken. -/
theorem counterpart_eq_within {needle haystack : Stream} {start stop : Nat}
    (h : haystack.InOffsetOrder) (hneedle : needle.offsets? = some (start, stop)) (hlt : start < stop)
    (hstarts : haystack.StartsAt start) :
    counterpart needle haystack = haystack.within start stop := by
  match haystack, h with
  | [], _ =>
    obtain ⟨p, hp, -⟩ := hstarts
    cases hp
  | [p], _ =>
    obtain ⟨q, hq, hoff⟩ := hstarts
    obtain rfl := List.mem_singleton.1 hq
    rw [counterpart_singleton hneedle, within,
      List.filter_cons_of_pos (by simp only [decide_eq_true_eq]; omega)]
    rfl
  | _ :: _ :: _, h => exact counterpart_eq_within_of_two h (by simp) hneedle hlt hstarts

/-- Carrying a run over loses no point that starts in its range: these points are the end of what is
taken. They are all of it if one of them starts where the run does. -/
theorem within_suffix_counterpart {needle haystack : Stream} {start stop : Nat}
    (h : haystack.InOffsetOrder) (hneedle : needle.offsets? = some (start, stop))
    (hlt : start < stop) :
    haystack.within start stop <:+ counterpart needle haystack ∧
      (haystack.StartsAt start →
        counterpart needle haystack = haystack.within start stop) := by
  match haystack, h with
  | [], _ =>
    rw [counterpart_nil]
    exact ⟨List.nil_suffix, fun _ => rfl⟩
  | [p], _ =>
    rw [counterpart_singleton hneedle]
    constructor
    · by_cases hp : start ≤ p.offset ∧ p.offset < stop
      · rw [within, List.filter_cons_of_pos (by simpa using hp)]
        exact List.suffix_refl _
      · rw [within, List.filter_cons_of_neg (by simpa using hp)]
        exact List.nil_suffix
    · rintro ⟨q, hq, hoff⟩
      obtain rfl := List.mem_singleton.1 hq
      rw [within, List.filter_cons_of_pos (by simp only [decide_eq_true_eq]; omega)]
      rfl
  | _ :: _ :: _, h =>
    exact ⟨within_suffix_counterpart_of_two h (by simp) hneedle,
      counterpart_eq_within_of_two h (by simp) hneedle hlt⟩

/-- A visible point of which only the offsets matter. -/
def bare (offset endOffset : Nat) : SequencePoint :=
  { offset, endOffset, start := ⟨1, 0⟩, stop := ⟨1, 1⟩, document := none, isHidden := false }

/-- The offsets 1 to 12 of two points take three points with them, two of which start together. -/
theorem within_suffix_counterpart_of_equal_offsets :
    InOffsetOrder [bare 0 1, bare 1 7, bare 7 7, bare 7 13, bare 13 16] ∧
      offsets? [bare 1 7, bare 7 12] = some (1, 12) ∧ 1 < 12 ∧
      StartsAt [bare 0 1, bare 1 7, bare 7 7, bare 7 13, bare 13 16] 1 ∧
      counterpart [bare 1 7, bare 7 12] [bare 0 1, bare 1 7, bare 7 7, bare 7 13, bare 13 16] =
        [bare 1 7, bare 7 7, bare 7 13] := by
  have horder : InOffsetOrder [bare 0 1, bare 1 7, bare 7 7, bare 7 13, bare 13 16] := by decide
  have hneedle : offsets? [bare 1 7, bare 7 12] = some (1, 12) := rfl
  have hstarts : StartsAt [bare 0 1, bare 1 7, bare 7 7, bare 7 13, bare 13 16] 1 := by decide
  exact ⟨horder, hneedle, by decide, hstarts,
    (within_suffix_counterpart horder hneedle (by decide)).2 hstarts⟩

/-! ## Gaps -/

/-- With `k` of `n` points in front of a gap, one of its neighbours is taken for it: the point right in
front of it, or the first point of all if there is none in front. -/
def Strays (k n : Nat) : Prop := n = 1 ∨ k < n ∧ (k = 0 ∨ landing k n + 1 = k)

instance (k n : Nat) : Decidable (Strays k n) :=
  inferInstanceAs (Decidable (n = 1 ∨ k < n ∧ (k = 0 ∨ landing k n + 1 = k)))

/-- In front of all points, the first one is always taken. -/
theorem strays_zero {n : Nat} (h : 0 < n) : Strays 0 n := by
  by_cases hone : n = 1
  · exact Or.inl hone
  · exact Or.inr ⟨h, Or.inl rfl⟩

/-- Behind all points, none is taken if there are at least two. -/
theorem not_strays_self {n : Nat} (h : n ≠ 1) : ¬ Strays n n := by
  rintro (hone | ⟨hlt, -⟩)
  · exact h hone
  · exact Nat.lt_irrefl n hlt

/-- Between two points it depends on how the halving rounds. -/
example : Strays 1 2 ∧ Strays 1 3 ∧ Strays 2 3 ∧ ¬ Strays 1 4 ∧ Strays 2 4 := by cbv

/-- A range in which a point starts has points. -/
theorem StartsAt.within_ne_nil {points : Stream} {start stop : Nat} (h : points.StartsAt start)
    (hlt : start < stop) : points.within start stop ≠ [] := by
  obtain ⟨p, hp, rfl⟩ := h
  exact List.ne_nil_of_mem (List.mem_filter.2 ⟨hp, by simpa using hlt⟩)

/-- The counterpart of a run in whose range no point starts. -/
theorem counterpart_of_gap {needle haystack : Stream} {start stop : Nat}
    (h : haystack.InOffsetOrder) (hneedle : needle.offsets? = some (start, stop))
    (hlt : start < stop) (gap : haystack.within start stop = []) :
    counterpart needle haystack =
      if Strays (haystack.countBefore start) haystack.length then
        haystack[haystack.countBefore start - 1]?.toList
      else [] := by
  have hle := haystack.countBefore_le_length start
  match haystack, h with
  | [], _ => rw [counterpart_nil, if_neg (by simp [Strays])]
  -- with one point the halving is never entered, and the point is always taken
  | [p], _ =>
    have hzero : countBefore [p] start - 1 = 0 := by
      simp only [List.length_cons, List.length_nil] at hle
      omega
    have hs : Strays (countBefore [p] start) [p].length := Or.inl rfl
    rw [counterpart_singleton hneedle, if_pos hs, hzero]
    rfl
  | p :: q :: rest, h =>
    have hlen : 2 ≤ (p :: q :: rest).length := by simp
    have hcount : countBefore (p :: q :: rest) stop = countBefore (p :: q :: rest) start := by
      have hmono := countBefore_mono (p :: q :: rest) (Nat.le_of_lt hlt)
      have hlength := length_run (countBefore_le_length (p :: q :: rest) stop)
        (i := countBefore (p :: q :: rest) start)
      rw [← h.within_eq_run (Nat.le_of_lt hlt), gap, List.length_nil] at hlength
      omega
    have hindex : boundaryIndex (p :: q :: rest) start =
        landing (countBefore (p :: q :: rest) start) (p :: q :: rest).length :=
      if_neg fun hstarts => hstarts.within_ne_nil hlt gap
    have hland := landing_cases hle
    rw [counterpart_eq_run h hlen hneedle, hcount, hindex]
    by_cases hs : Strays (countBefore (p :: q :: rest) start) (p :: q :: rest).length
    · have hs' := hs
      rw [Strays] at hs'
      rw [if_pos hs, if_pos (by omega),
        show landing (countBefore (p :: q :: rest) start) (p :: q :: rest).length =
          countBefore (p :: q :: rest) start - 1 from by omega]
      exact run_succ _ _
    · have hs' := hs
      rw [Strays] at hs'
      rw [if_neg hs, if_neg (by omega)]

/-! ## What starts behind the range -/

/-- A run up to the end of a range starts in front of it. -/
theorem InOffsetOrder.offset_lt_of_mem_run {points : Stream} (h : points.InOffsetOrder) {i stop : Nat}
    {p : SequencePoint} (hp : p ∈ run points i (points.countBefore stop)) : p.offset < stop := by
  obtain ⟨j, hj⟩ := List.mem_iff_getElem?.1 hp
  rw [run, List.getElem?_take] at hj
  split at hj
  · rw [List.getElem?_drop] at hj
    exact (h.lt_countBefore_iff hj stop).1 (by omega)
  · cases hj

/-- If some point starts before the end of the range, so does all that is taken. -/
theorem InOffsetOrder.offset_lt_of_mem_counterpart {needle haystack : Stream} {start stop : Nat}
    (h : haystack.InOffsetOrder) (hneedle : needle.offsets? = some (start, stop))
    (hsome : ∃ p ∈ haystack, p.offset < stop) : ∀ p ∈ counterpart needle haystack, p.offset < stop := by
  intro p hp
  match haystack, h with
  | [], _ =>
    rw [counterpart_nil] at hp
    cases hp
  | [q], _ =>
    obtain ⟨r, hr, hlt⟩ := hsome
    rw [counterpart_singleton hneedle] at hp
    rw [List.mem_singleton.1 hp, ← List.mem_singleton.1 hr]
    exact hlt
  | q :: r :: rest, h =>
    have hpos := countBefore_pos_iff.2 hsome
    rw [counterpart_eq_run h (by simp) hneedle, Nat.sub_add_cancel hpos] at hp
    split at hp
    · exact h.offset_lt_of_mem_run hp
    · cases hp

/-- For a range in front of all points, the first one is taken. -/
theorem InOffsetOrder.counterpart_of_front {needle haystack : Stream} {start stop : Nat}
    (h : haystack.InOffsetOrder) (hneedle : needle.offsets? = some (start, stop))
    (hlt : start < stop) (hfront : ∀ p ∈ haystack, stop ≤ p.offset) :
    counterpart needle haystack = haystack.head?.toList := by
  have hzero : haystack.countBefore start = 0 :=
    countBefore_eq_zero_iff.2 fun p hp => Nat.le_trans (Nat.le_of_lt hlt) (hfront p hp)
  have hgap : haystack.within start stop = [] := by
    refine List.filter_eq_nil_iff.2 fun p hp => ?_
    have hle := hfront p hp
    simp only [decide_eq_true_eq]
    omega
  rw [counterpart_of_gap h hneedle hlt hgap, hzero]
  match haystack with
  | [] => rfl
  | p :: rest => exact if_pos (strays_zero (Nat.zero_lt_succ _))

/-- Everything that is taken for a range starts before its end exactly if some point of the stream
does, or the stream has no points. For a range in front of all points, the first one is taken. -/
theorem counterpart_before_stop {needle haystack : Stream} {start stop : Nat}
    (h : haystack.InOffsetOrder) (hneedle : needle.offsets? = some (start, stop))
    (hlt : start < stop) :
    ((∀ p ∈ counterpart needle haystack, p.offset < stop) ↔
      haystack = [] ∨ ∃ p ∈ haystack, p.offset < stop) ∧
    ((∀ p ∈ haystack, stop ≤ p.offset) →
      counterpart needle haystack = haystack.head?.toList) := by
  refine ⟨⟨fun hbefore => ?_, ?_⟩, h.counterpart_of_front hneedle hlt⟩
  · refine Decidable.byContradiction fun hnone => ?_
    obtain ⟨hne, hnone⟩ := not_or.1 hnone
    have hfront : ∀ p ∈ haystack, stop ≤ p.offset := fun p hp =>
      Nat.le_of_not_lt fun hp' => hnone ⟨p, hp, hp'⟩
    obtain ⟨p, rest, rfl⟩ := List.exists_cons_of_ne_nil hne
    rw [h.counterpart_of_front hneedle hlt hfront] at hbefore
    have hp : p.offset < stop := hbefore p (List.mem_singleton_self p)
    exact Nat.not_lt.2 (hfront p List.mem_cons_self) hp
  · rintro (rfl | hsome)
    · rw [counterpart_nil]
      exact fun p hp => absurd hp List.not_mem_nil
    · exact h.offset_lt_of_mem_counterpart hneedle hsome

/-- A range in front of both of two points takes the first of them; one that ends between the two takes
nothing that starts behind it. -/
theorem counterpart_before_stop_of_two :
    InOffsetOrder [bare 10 15, bare 15 20] ∧ offsets? [bare 0 5] = some (0, 5) ∧ 0 < 5 ∧
      (∀ p ∈ ([bare 10 15, bare 15 20] : Stream), 5 ≤ p.offset) ∧
      counterpart [bare 0 5] [bare 10 15, bare 15 20] = [bare 10 15] ∧
      offsets? [bare 7 12] = some (7, 12) ∧ 7 < 12 ∧
      ∀ p ∈ counterpart [bare 7 12] [bare 10 15, bare 15 20], p.offset < 12 := by
  have horder : InOffsetOrder [bare 10 15, bare 15 20] := by decide
  have hfront : ∀ p ∈ ([bare 10 15, bare 15 20] : Stream), 5 ≤ p.offset := by decide
  have hneedle : offsets? [bare 0 5] = some (0, 5) := rfl
  have hneedle' : offsets? [bare 7 12] = some (7, 12) := rfl
  exact ⟨horder, hneedle, by decide, hfront,
    (counterpart_before_stop horder hneedle (by decide)).2 hfront, hneedle', by decide,
    (counterpart_before_stop horder hneedle' (by decide)).1.2 (Or.inr (by decide))⟩

/-- So something may be taken that starts behind the range. -/
theorem not_forall_counterpart_before_stop :
    ¬ ∀ (needle haystack : Stream) (start stop : Nat), haystack.InOffsetOrder →
      needle.offsets? = some (start, stop) → start < stop →
      ∀ p ∈ counterpart needle haystack, p.offset < stop := by
  intro h
  have horder : InOffsetOrder [bare 10 15, bare 15 20] := by decide
  have hneedle : offsets? [bare 0 5] = some (0, 5) := rfl
  have hbefore := h [bare 0 5] [bare 10 15, bare 15 20] 0 5 horder hneedle (by decide)
  rw [horder.counterpart_of_front hneedle (by decide) (by decide)] at hbefore
  exact absurd (hbefore (bare 10 15) (List.mem_singleton_self _)) (by decide)

end Retrace.Stream
