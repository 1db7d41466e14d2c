import Retrace.Proofs.Stream.Covering

/-!
# The points next to an offset

Which points the two searches over IL offsets find, said without how they search. In a stream in the
order of its offsets

* `lastByOffset_clamped` : the search for the end of a run finds the last point that starts before its
  target, or the first point of all if there is none;
* `firstByOffset_settled` : the search for the start of a run finds the first of the points that start
  at its target. Between two points it finds one of the two, in front of all points the first one, and
  behind all points none;
* `firstByOffset_in_range` : if all points start at different offsets, the point that is found between
  two others is the one in front exactly if the halving lands on it.
-/

namespace Retrace.Stream

variable {points : Stream} {P : SequencePoint → Prop} {start : Nat}

/-! ## The last point of a kind -/

/-- A point of the kind is at the index, and none behind it. -/
structure LastIndex (points : Stream) (P : SequencePoint → Prop) (i : Nat) : Prop where
  at_ : ∃ p, points[i]? = some p ∧ P p
  not_of_lt : ∀ j q, i < j → points[j]? = some q → ¬ P q

/-- No kind of point has two last ones. -/
theorem LastIndex.unique {i j : Nat} (hi : points.LastIndex P i) (hj : points.LastIndex P j) :
    i = j := by
  obtain ⟨p, hp, hP⟩ := hi.at_
  obtain ⟨q, hq, hQ⟩ := hj.at_
  rcases Nat.lt_trichotomy i j with hlt | heq | hlt
  · exact absurd hQ (hi.not_of_lt j q hlt hq)
  · exact heq
  · exact absurd hP (hj.not_of_lt i p hlt hp)

/-- If the points of a kind are the first `k` of a stream, the last of them is at the index `k - 1`. -/
theorem lastIndex_iff {i k : Nat} (hk : k ≤ points.length)
    (hfirst : ∀ {j : Nat} {p}, points[j]? = some p → (j < k ↔ P p)) :
    points.LastIndex P i ↔ i + 1 = k := by
  constructor
  · rintro ⟨⟨p, hp, hP⟩, hlater⟩
    have hlower : i < k := (hfirst hp).2 hP
    refine Nat.le_antisymm hlower (Nat.le_of_not_lt fun hlt => ?_)
    have hnext : points[i + 1]? = some points[i + 1] := List.getElem?_eq_getElem (by omega)
    exact hlater (i + 1) _ (Nat.lt_succ_self i) hnext ((hfirst hnext).1 hlt)
  · rintro rfl
    have hp : points[i]? = some points[i] := List.getElem?_eq_getElem (by omega)
    refine ⟨⟨_, hp, (hfirst hp).1 (Nat.lt_succ_self i)⟩, fun j q hij hq hP => ?_⟩
    have := (hfirst hq).2 hP
    omega

/-- In order, the last point in front of an offset is the last one that is counted. -/
theorem InOffsetOrder.lastIndex_before_iff (h : points.InOffsetOrder) {target i : Nat} :
    points.LastIndex (fun p => p.offset < target) i ↔ i + 1 = points.countBefore target :=
  lastIndex_iff (points.countBefore_le_length target) fun hp => h.lt_countBefore_iff hp target

/-- The last point at or in front of an offset is the last one in front of the next offset. -/
theorem InOffsetOrder.lastIndex_upTo_iff (h : points.InOffsetOrder) {target i : Nat} :
    points.LastIndex (fun p => p.offset ≤ target) i ↔ i + 1 = points.countBefore (target + 1) :=
  lastIndex_iff (points.countBefore_le_length (target + 1)) fun hp =>
    (h.lt_countBefore_iff hp (target + 1)).trans Nat.lt_succ_iff

/-! ## The end of a run -/

/-- The search for the end of a run that stops before an offset is exact: with `k` points that start
before this offset it finds index `k - 1`, or 0 if `k` is 0. That is the last point that starts before
the offset, the first point of the stream if none does, and its last one if all do. -/
theorem lastByOffset_clamped (h : points.InOffsetOrder) (hne : points ≠ []) (stop : Nat) :
    ∃ i, lastByOffset points stop = some i ∧
      (i : Int) = max 0 ((points.countBefore stop : Int) - 1) ∧
      ((∃ p ∈ points, p.offset < stop) → points.LastIndex (fun p => p.offset < stop) i) ∧
      ((∀ p ∈ points, stop ≤ p.offset) → i = 0) ∧
      ((∀ p ∈ points, p.offset < stop) → i + 1 = points.length) := by
  have hpos : 0 < points.length := List.length_pos_iff.2 hne
  refine ⟨points.countBefore stop - 1, lastByOffset_eq h hne stop, by omega, ?_, ?_, ?_⟩
  · intro hsome
    have hcount := countBefore_pos_iff.2 hsome
    exact h.lastIndex_before_iff.2 (by omega)
  · intro hnone
    rw [countBefore_eq_zero_iff.2 hnone]
  · intro hall
    rw [countBefore_eq_length_iff.2 hall]
    omega

/-- Two of four points start together; a run that stops behind them ends on the second of these. -/
theorem lastByOffset_clamped_of_equal_offsets :
    InOffsetOrder [bare 0 1, bare 1 1, bare 1 7, bare 7 9] ∧
      ([bare 0 1, bare 1 1, bare 1 7, bare 7 9] : Stream) ≠ [] ∧
      lastByOffset [bare 0 1, bare 1 1, bare 1 7, bare 7 9] 5 = some 2 := by
  have horder : InOffsetOrder [bare 0 1, bare 1 1, bare 1 7, bare 7 9] := by decide
  have hne : ([bare 0 1, bare 1 1, bare 1 7, bare 7 9] : Stream) ≠ [] := List.cons_ne_nil _ _
  have hcount : countBefore [bare 0 1, bare 1 1, bare 1 7, bare 7 9] 5 = 3 := by decide
  obtain ⟨i, hfound, hindex, -⟩ := lastByOffset_clamped horder hne 5
  rw [hcount] at hindex
  obtain rfl : i = 2 := by omega
  exact ⟨horder, hne, hfound⟩

/-! ## The start of a run -/

/-- The point behind those that start before a target starts at it, if some point does. -/
theorem StartsAt.getElem?_countBefore (h : points.InOffsetOrder) (hstarts : points.StartsAt start) :
    ∃ p, points[points.countBefore start]? = some p ∧ p.offset = start := by
  obtain ⟨q, hq, hoff⟩ := hstarts
  obtain ⟨j, hj⟩ := List.mem_iff_getElem?.1 hq
  have hle : ¬ j < points.countBefore start := by
    rw [h.lt_countBefore_iff hj]
    omega
  have hlt := (List.getElem?_eq_some_iff.1 hj).1
  have hp : points[points.countBefore start]? = some points[points.countBefore start] :=
    List.getElem?_eq_getElem (by omega)
  have hge := mt (h.lt_countBefore_iff hp start).2 (Nat.lt_irrefl _)
  refine ⟨_, hp, ?_⟩
  rcases Nat.eq_or_lt_of_le (Nat.le_of_not_lt hle) with rfl | hbehind
  · rw [Option.some.inj (hp.symm.trans hj)]
    exact hoff
  · have := h.le_of_lt hbehind hp hj
    omega

/-- A point that starts at an offset is behind all that are counted. -/
theorem StartsAt.indexOfOffset?_eq (h : points.InOffsetOrder) (hstarts : points.StartsAt start) :
    points.indexOfOffset? start = some (points.countBefore start) := by
  obtain ⟨p, hp, hoff⟩ := hstarts.getElem?_countBefore h
  obtain ⟨hlt, rfl⟩ := List.getElem?_eq_some_iff.1 hp
  refine List.findIdx?_eq_some_iff_getElem.2 ⟨hlt, by simpa using hoff, fun j hj => ?_⟩
  have hjlt : j < points.length := by omega
  have hbefore := (h.lt_countBefore_iff (List.getElem?_eq_getElem hjlt) start).1 hj
  simp only [beq_iff_eq]
  omega

/-- A run that starts where some point does begins with the first such point. -/
theorem StartsAt.firstByOffset_eq (h : points.InOffsetOrder) (hstarts : points.StartsAt start) :
    firstByOffset points start = some (points.countBefore start) := by
  obtain ⟨p, hp, -⟩ := hstarts.getElem?_countBefore h
  have hlt := (List.getElem?_eq_some_iff.1 hp).1
  rcases Nat.lt_or_ge points.length 2 with hshort | hlen
  · obtain ⟨only, rfl⟩ := List.length_eq_one_iff.1 (show points.length = 1 by omega)
    rw [firstByOffset, show countBefore [only] start = 0 from by simpa using hlt]
  · rw [Stream.firstByOffset_eq h hlen, if_neg (by omega), hstarts.boundaryIndex_eq]

/-- A run that starts between two points begins with the one in front if the halving lands on it, and
else with the one behind. -/
theorem InOffsetOrder.firstByOffset_between (h : points.InOffsetOrder) {i : Nat}
    (hmissed : ¬ points.StartsAt start) (hi : i + 1 = points.countBefore start)
    (hlt : points.countBefore start < points.length) :
    firstByOffset points start = some (if LandsOn i points.length then i else i + 1) := by
  have hland := landing_cases (points.countBefore_le_length start)
  rw [firstByOffset_eq h (by omega), if_neg (by omega), boundaryIndex, if_neg hmissed, ← hi]
  rw [← hi] at hland
  by_cases hlands : LandsOn i points.length
  · have hon : landing (i + 1) points.length = i := by
      rcases hlands with hone | ⟨-, hon⟩
      · omega
      · exact hon
    rw [if_pos hlands, hon]
  · have hpast : landing (i + 1) points.length ≠ i :=
      fun hon => hlands (Or.inr ⟨by omega, hon⟩)
    rw [if_neg hlands, show landing (i + 1) points.length = i + 1 from by omega]

/-- What the search for the start of a run finds among two or more points: the first point that starts
at the target, if there is one; nothing exactly if all points start before it; the first point of all
if all start behind it; and between two points one of these two. -/
theorem firstByOffset_settled (h : points.InOffsetOrder) (hlen : 2 ≤ points.length) (start : Nat) :
    (points.StartsAt start → ∃ i, firstByOffset points start = some i ∧
      points.indexOfOffset? start = some i) ∧
    (firstByOffset points start = none ↔ ∀ p ∈ points, p.offset < start) ∧
    ((∀ p ∈ points, start < p.offset) → firstByOffset points start = some 0) ∧
    (¬ points.StartsAt start → (∃ p ∈ points, p.offset < start) →
      (∃ p ∈ points, start < p.offset) →
        ∃ i, points.LastIndex (fun p => p.offset < start) i ∧
          (firstByOffset points start = some i ∨ firstByOffset points start = some (i + 1))) := by
  have hfound := firstByOffset_eq h hlen start
  refine ⟨fun hstarts => ?_, ?_, fun hfront => ?_, fun hmissed hbefore hbehind => ?_⟩
  · exact ⟨_, hstarts.firstByOffset_eq h, hstarts.indexOfOffset?_eq h⟩
  · rw [hfound, ← countBefore_eq_length_iff]
    split
    · next hall => exact iff_of_true rfl hall
    · next hsome => exact iff_of_false (Option.some_ne_none _) hsome
  · have hzero := countBefore_eq_zero_iff.2 fun p hp => Nat.le_of_lt (hfront p hp)
    have hcases := points.boundaryIndex_cases start
    rw [hfound, if_neg (by omega), show points.boundaryIndex start = 0 from by omega]
  · obtain ⟨q, hq, hlt⟩ := hbehind
    have hpos := countBefore_pos_iff.2 hbefore
    have hsome := countBefore_lt_length_iff.2 ⟨q, hq, Nat.le_of_lt hlt⟩
    obtain ⟨i, hi⟩ : ∃ i, i + 1 = points.countBefore start := ⟨_, Nat.sub_add_cancel hpos⟩
    refine ⟨i, h.lastIndex_before_iff.2 hi, ?_⟩
    rw [h.firstByOffset_between hmissed hi hsome]
    split
    · exact Or.inl rfl
    · exact Or.inr rfl

/-- Four points of five bytes each. -/
def fourPoints : Stream := [bare 0 5, bare 5 10, bare 10 15, bare 15 20]

/-- A run that starts on the second of four points begins there, one that starts behind the first of
them at one of these two, and one that starts behind all of them nowhere. -/
theorem firstByOffset_settled_of_four :
    fourPoints.InOffsetOrder ∧ 2 ≤ fourPoints.length ∧ fourPoints.StartsAt 5 ∧
      firstByOffset fourPoints 5 = some 1 ∧ ¬ fourPoints.StartsAt 2 ∧
      (firstByOffset fourPoints 2 = some 0 ∨ firstByOffset fourPoints 2 = some 1) ∧
      firstByOffset fourPoints 16 = none := by
  have horder : fourPoints.InOffsetOrder := by decide
  have hlen : 2 ≤ fourPoints.length := by decide
  have hstarts : fourPoints.StartsAt 5 := by decide
  have hmissed : ¬ fourPoints.StartsAt 2 := by decide
  obtain ⟨hon, -⟩ := firstByOffset_settled horder hlen 5
  obtain ⟨-, -, -, hbetween⟩ := firstByOffset_settled horder hlen 2
  obtain ⟨-, hbehind, -⟩ := firstByOffset_settled horder hlen 16
  obtain ⟨i, hfound, hindex⟩ := hon hstarts
  obtain ⟨j, hlast, hone⟩ := hbetween hmissed (by decide) (by decide)
  have hi : fourPoints.indexOfOffset? 5 = some 1 := by decide
  have hj : j + 1 = 1 := horder.lastIndex_before_iff.1 hlast
  obtain rfl : j = 0 := by omega
  exact ⟨horder, hlen, hstarts, hfound.trans (hindex.symm.trans hi), hmissed, hone,
    hbehind.2 (by decide)⟩

/-! ## Between two points -/

/-- If all points start at different offsets, one that starts at the target is the last one that starts
there or before. -/
theorem StartsAt.lastIndex_upTo (h : points.Pairwise fun p q => p.offset < q.offset)
    (hstarts : points.StartsAt start) :
    points.LastIndex (fun p => p.offset ≤ start) (points.countBefore start) := by
  obtain ⟨p, hp, hoff⟩ := hstarts.getElem?_countBefore (h.imp Nat.le_of_lt)
  refine ⟨⟨p, hp, Nat.le_of_eq hoff⟩, fun j q hij hq => ?_⟩
  obtain ⟨hi, rfl⟩ := List.getElem?_eq_some_iff.1 hp
  obtain ⟨hj, rfl⟩ := List.getElem?_eq_some_iff.1 hq
  have hlt := List.pairwise_iff_getElem.1 h _ _ hi hj hij
  omega

/-- If no point starts at the target, the last one that starts there or before starts before it. -/
theorem InOffsetOrder.lastIndex_upTo_of_missed (h : points.InOffsetOrder)
    (hmissed : ∀ p ∈ points, p.offset ≠ start) {i : Nat} :
    points.LastIndex (fun p => p.offset ≤ start) i ↔ i + 1 = points.countBefore start := by
  refine lastIndex_iff (points.countBefore_le_length start) fun {j p} hp => ?_
  have hne := hmissed p (List.mem_of_getElem? hp)
  rw [h.lt_countBefore_iff hp]
  omega

/-- The search for the start of a run, if its target is not in front of the first point and not behind
the start of the last one. The last point that starts at the target or before is found if it starts at
the target, or if the halving lands on it. Otherwise the next point is found, which starts too late.
-/
theorem firstByOffset_in_range {first last : SequencePoint}
    (h : points.Pairwise fun p q => p.offset < q.offset)
    (hfirst : points.head? = some first) (hstart : first.offset ≤ start)
    (hlast : points.getLast? = some last) (hstop : start ≤ last.offset) :
    ∃ i, points.LastIndex (fun p => p.offset ≤ start) i ∧
      (firstByOffset points start = some i ↔
        points.StartsAt start ∨ LandsOn i points.length) ∧
      (¬ (points.StartsAt start ∨ LandsOn i points.length) →
        ∃ next, firstByOffset points start = some (i + 1) ∧ points[i + 1]? = some next ∧
          start < next.offset) := by
  have horder : points.InOffsetOrder := h.imp Nat.le_of_lt
  by_cases hstarts : points.StartsAt start
  · exact ⟨_, hstarts.lastIndex_upTo h,
      iff_of_true (hstarts.firstByOffset_eq horder) (Or.inl hstarts),
      fun hnone => absurd (Or.inl hstarts) hnone⟩
  -- from here on the offset is inside of a range, between two starts
  have hmissed : ∀ p ∈ points, p.offset ≠ start := fun p hp hoff => hstarts ⟨p, hp, hoff⟩
  have hmem : first ∈ points := List.mem_of_mem_head? hfirst
  have hpos : 0 < points.countBefore start :=
    countBefore_pos_iff.2 ⟨first, hmem, Nat.lt_of_le_of_ne hstart (hmissed first hmem)⟩
  have hsome : points.countBefore start < points.length :=
    countBefore_lt_length_iff.2 ⟨last, List.mem_of_mem_getLast? hlast, hstop⟩
  obtain ⟨i, hi⟩ : ∃ i, i + 1 = points.countBefore start := ⟨_, Nat.sub_add_cancel hpos⟩
  have hfound := horder.firstByOffset_between hstarts hi hsome
  refine ⟨i, (horder.lastIndex_upTo_of_missed hmissed).2 hi, ?_, fun hnone => ?_⟩
  · rw [hfound, or_iff_right hstarts, Option.some.injEq]
    split
    · next hlands => exact iff_of_true rfl hlands
    · next hpast => exact iff_of_false (Nat.succ_ne_self i) hpast
  · have hnext : points[i + 1]? = some points[i + 1] := List.getElem?_eq_getElem (by omega)
    have hbehind := mt (horder.lt_countBefore_iff hnext start).2 (by omega)
    have hne := hmissed _ (List.mem_of_getElem? hnext)
    rw [if_neg (not_or.1 hnone).2] at hfound
    exact ⟨_, hfound, hnext, by omega⟩

/-- Offset 2 is inside of the first of four ranges, and the halving does not come down on it. -/
theorem not_found_of_four : ¬ (fourPoints.StartsAt 2 ∨ LandsOn 0 fourPoints.length) := by
  decide +kernel

/-- A run that starts behind the first of four points begins at the second one. -/
theorem firstByOffset_in_range_of_four :
    fourPoints.Pairwise (fun p q => p.offset < q.offset) ∧
      fourPoints.head? = some (bare 0 5) ∧ (bare 0 5).offset ≤ 2 ∧
      fourPoints.getLast? = some (bare 15 20) ∧ 2 ≤ (bare 15 20).offset ∧
      fourPoints.LastIndex (fun p => p.offset ≤ 2) 0 ∧ firstByOffset fourPoints 2 = some 1 := by
  have h : fourPoints.Pairwise (fun p q => p.offset < q.offset) := by decide
  have horder : fourPoints.InOffsetOrder := by decide
  have hstart : (bare 0 5).offset ≤ 2 := by decide
  have hstop : 2 ≤ (bare 15 20).offset := by decide
  obtain ⟨i, hlast, -, hnext⟩ := firstByOffset_in_range h rfl hstart rfl hstop
  have hi : i + 1 = 1 := horder.lastIndex_upTo_iff.1 hlast
  obtain rfl : i = 0 := by omega
  obtain ⟨next, hfound, -⟩ := hnext not_found_of_four
  exact ⟨h, rfl, hstart, rfl, hstop, hlast, hfound⟩

/-- So a run that starts between two points need not begin with the last point at its start or before.
-/
theorem not_forall_firstByOffset_in_range :
    ¬ ∀ (points : Stream) (start i : Nat) (first last : SequencePoint), 2 ≤ points.length →
      points.Pairwise (fun p q => p.offset < q.offset) →
      points.head? = some first → first.offset ≤ start →
      points.getLast? = some last → start ≤ last.offset →
      points.LastIndex (fun p => p.offset ≤ start) i → firstByOffset points start = some i := by
  intro h
  have horder : fourPoints.InOffsetOrder := by decide
  have hlast : fourPoints.LastIndex (fun p => p.offset ≤ 2) 0 :=
    horder.lastIndex_upTo_iff.2 (by decide)
  have hclaimed := h fourPoints 2 0 (bare 0 5) (bare 15 20) (by decide) (by decide) rfl (by decide)
    rfl (by decide) hlast
  have hmissed : ¬ fourPoints.StartsAt 2 := by decide
  have hi : 0 + 1 = fourPoints.countBefore 2 := by decide
  have hfound := horder.firstByOffset_between hmissed hi (by decide)
  rw [hclaimed, if_neg (not_or.1 not_found_of_four).2] at hfound
  cases hfound

end Retrace.Stream
