import Retrace.Proofs.Stream.Ends

/-!
# The last point behind a position

Which point the search over source positions finds, said without how it searches. The point that is
looked for is the last one at or before the position (`LastBehind`). In a stream in the order of its
starts

* `firstBySource_settled` : it is found from the line that it starts on. From a later line it is found,
  or else the next point. No point is found exactly if all of them start on earlier lines, and the first
  one of all if none starts at or before the position;
* `firstBySource_lastBehind` : from a later line it is found exactly if the halving lands on it.

Both are read off where a covering run begins (`StartsIn.firstBySource_eq`), since a position is always
in the text of the last point at or before it or in the gap behind that.
-/

namespace Retrace.Stream

variable {points : Stream} {position : LinePosition} {i : Nat}

/-- What is to be found at or before a position: the last point there, or no point if all of them start
behind the position. -/
def LastBehind (points : Stream) (position : LinePosition) : Option Nat → Prop
  | none => ∀ p ∈ points, position < p.start
  | some i => points.LastIndex (fun p => p.IsBehind position) i

/-- Some point starts on the line of the position, at the position or before. -/
def StartsOnLine (points : Stream) (position : LinePosition) : Prop :=
  ∃ p ∈ points, p.start.line = position.line ∧ p.start.character ≤ position.character

instance (points : Stream) (position : LinePosition) : Decidable (points.StartsOnLine position) :=
  inferInstanceAs (Decidable (∃ p ∈ points, p.start.line = position.line ∧
    p.start.character ≤ position.character))

/-- A point that starts on the line of a position, and not behind it, is at it or in front of it. -/
theorem StartsOnLine.exists_isBehind (h : points.StartsOnLine position) :
    ∃ p ∈ points, p.IsBehind position := by
  obtain ⟨p, hp, hline, hcharacter⟩ := h
  exact ⟨p, hp, Or.inr ⟨hline, hcharacter⟩⟩

/-! ## Where the last point behind is -/

/-- In order, the last point at or in front of a position is the last one that is counted. -/
theorem InSourceOrder.lastIndex_behind_iff (h : points.InSourceOrder) :
    points.LastIndex (fun p => p.IsBehind position) i ↔ i + 1 = points.countBehind position :=
  lastIndex_iff (points.countBehind_le_length position) fun hp => h.lt_countBehind_iff hp position

/-- If there is such a point, there is a last one. -/
theorem InSourceOrder.exists_lastIndex_behind (h : points.InSourceOrder)
    (hsome : ∃ p ∈ points, p.IsBehind position) :
    ∃ i, points.LastIndex (fun p => p.IsBehind position) i :=
  ⟨_, h.lastIndex_behind_iff.2 (Nat.sub_add_cancel (countBehind_pos_iff.2 hsome))⟩

/-- Either there is a last point at or before the position, or all points start behind it. -/
theorem InSourceOrder.lastIndex_or_front (h : points.InSourceOrder) (position : LinePosition) :
    (∃ i, points.LastIndex (fun p => p.IsBehind position) i) ∨ ∀ p ∈ points, position < p.start := by
  by_cases hsome : ∃ p ∈ points, p.IsBehind position
  · exact Or.inl (h.exists_lastIndex_behind hsome)
  · exact Or.inr fun p hp => not_isBehind_iff.1 fun hbehind => hsome ⟨p, hp, hbehind⟩

/-- In front of all points there is none. -/
theorem not_lastIndex_of_front (hfront : ∀ p ∈ points, position < p.start) :
    ¬ points.LastIndex (fun p => p.IsBehind position) i := by
  rintro ⟨⟨p, hp, hbehind⟩, -⟩
  exact not_isBehind_iff.2 (hfront p (List.mem_of_getElem? hp)) hbehind

/-- If there is a last one, it is the only right answer. -/
theorem LastIndex.lastBehind_iff (hlast : points.LastIndex (fun p => p.IsBehind position) i)
    {found : Option Nat} : points.LastBehind position found ↔ found = some i := by
  cases found with
  | none =>
    exact iff_of_false (fun hfront => not_lastIndex_of_front hfront hlast)
      (Option.some_ne_none i).symm
  | some j =>
    rw [Option.some.injEq]
    constructor
    · exact fun hlast' => hlast'.unique hlast
    · rintro rfl
      exact hlast

/-- The position is at the start of the last point behind it, or between this point and the next one. -/
theorem LastIndex.exists_startsIn (hlast : points.LastIndex (fun p => p.IsBehind position) i) :
    ∃ p, points.StartsIn position i p := by
  obtain ⟨⟨p, hp, hbehind⟩, hlater⟩ := hlast
  exact ⟨p, hp, hbehind, fun next hnext =>
    not_isBehind_iff.1 (hlater (i + 1) next (Nat.lt_succ_self i) hnext)⟩

/-- If some point starts on the line of the position, at the position or before, then the last point
behind the position does. -/
theorem StartsIn.line_eq_iff {p : SequencePoint} (h : points.InSourceOrder)
    (hstarts : points.StartsIn position i p) :
    p.start.line = position.line ↔ points.StartsOnLine position := by
  have hle := hstarts.start_le
  rw [LinePosition.le_iff] at hle
  constructor
  · intro hline
    exact ⟨p, List.mem_of_getElem? hstarts.at_, hline, by omega⟩
  · rintro ⟨q, hq, hline, hcharacter⟩
    obtain ⟨j, hj⟩ := List.mem_iff_getElem?.1 hq
    -- `q` is at the index of `p` or in front of it, so `p` is not on an earlier line
    have hji : j < i + 1 := by
      rw [← hstarts.countBehind_eq h]
      exact (h.lt_countBehind_iff hj position).2 (Or.inr ⟨hline, hcharacter⟩)
    have hcount := h.lt_countLinesBefore_iff hj position.line
    have hcount' := h.lt_countLinesBefore_iff hstarts.at_ position.line
    omega

/-! ## What is found -/

/-- The last point behind the position is found from its own line, or if the halving lands on it.
Otherwise the next point is, if there is one. -/
theorem LastIndex.firstBySource_eq (h : points.InSourceOrder)
    (hlast : points.LastIndex (fun p => p.IsBehind position) i) :
    firstBySource points position =
      if points.StartsOnLine position ∨ LandsOn i points.length then some i
      else if i + 1 < points.length then some (i + 1)
      else none := by
  obtain ⟨p, hstarts⟩ := hlast.exists_startsIn
  rw [hstarts.firstBySource_eq h]
  simp only [hstarts.line_eq_iff h]

/-- The search finds it if a point starts on the line, or if the halving comes down on it. -/
theorem LastIndex.firstBySource_eq_some_iff (h : points.InSourceOrder)
    (hlast : points.LastIndex (fun p => p.IsBehind position) i) :
    firstBySource points position = some i ↔
      points.StartsOnLine position ∨ LandsOn i points.length := by
  rw [hlast.firstBySource_eq h]
  by_cases hfound : points.StartsOnLine position ∨ LandsOn i points.length
  · rw [if_pos hfound]
    exact iff_of_true rfl hfound
  · rw [if_neg hfound]
    refine iff_of_false ?_ hfound
    split
    · exact fun hnext => Nat.succ_ne_self i (Option.some.inj hnext)
    · exact (Option.some_ne_none i).symm

/-- In front of all points, the first one is found. -/
theorem firstBySource_of_front (h : points.InSourceOrder) (hne : points ≠ [])
    (hfront : ∀ p ∈ points, position < p.start) : firstBySource points position = some 0 := by
  have hbehind := countBehind_eq_zero_iff.2 hfront
  have hlines := points.countLinesBefore_le_countBehind position
  have hland := landing_cases (points.countLinesBefore_le_length position.line)
  match points, hne with
  | [p], _ => rfl
  | p :: q :: rest, _ =>
    rw [firstBySource_eq h (by simp), if_neg (by simp only [List.length_cons]; omega), sourceIndex,
      hbehind]
    congr 1
    omega

/-- Among several points the search finds nothing if and only if all of them start on earlier lines. -/
theorem firstBySource_eq_none_iff (h : points.InSourceOrder) (hlen : 2 ≤ points.length) :
    firstBySource points position = none ↔ ∀ p ∈ points, p.start.line < position.line := by
  rw [firstBySource_eq h hlen, ← countLinesBefore_eq_length_iff]
  split
  · next hall => exact iff_of_true rfl hall
  · next hsome => exact iff_of_false (Option.some_ne_none _) hsome

/-- What the search finds among two or more points: nothing exactly if all points start on lines before
that of the position; the last point at or before the position, if some point starts there on the same
line; and else this last one or the next, or the first point of all if none starts at or before the
position. -/
theorem firstBySource_settled (h : points.InSourceOrder) (hlen : 2 ≤ points.length)
    (position : LinePosition) :
    (firstBySource points position = none ↔ ∀ p ∈ points, p.start.line < position.line) ∧
    (points.StartsOnLine position → ∃ i, firstBySource points position = some i ∧
      points.LastIndex (fun p => p.IsBehind position) i) ∧
    (¬ points.StartsOnLine position → (∃ p ∈ points, position.line ≤ p.start.line) →
      (∃ i, points.LastIndex (fun p => p.IsBehind position) i ∧
        (firstBySource points position = some i ∨ firstBySource points position = some (i + 1))) ∨
      (∀ p ∈ points, position < p.start) ∧ firstBySource points position = some 0) := by
  have hnone : firstBySource points position = none ↔ ∀ p ∈ points, p.start.line < position.line :=
    firstBySource_eq_none_iff h hlen
  refine ⟨hnone, fun hline => ?_, fun hmissed hbehind => ?_⟩
  · obtain ⟨i, hlast⟩ := h.exists_lastIndex_behind hline.exists_isBehind
    exact ⟨i, (hlast.firstBySource_eq_some_iff h).2 (Or.inl hline), hlast⟩
  · rcases h.lastIndex_or_front position with ⟨i, hlast⟩ | hfront
    · have hfound := hlast.firstBySource_eq h
      refine Or.inl ⟨i, hlast, ?_⟩
      split at hfound
      · exact Or.inl hfound
      · split at hfound
        · exact Or.inr hfound
        · obtain ⟨p, hp, hle⟩ := hbehind
          exact absurd (hnone.1 hfound p hp) (Nat.not_lt.2 hle)
    · have hne : points ≠ [] := List.length_pos_iff.1 (by omega)
      exact Or.inr ⟨hfront, firstBySource_of_front h hne hfront⟩

/-- Of four statements, the third one is found from its own line, the first or the second one from a
later line of the first, and none from behind all. -/
theorem firstBySource_settled_of_fourStatements :
    fourStatements.InSourceOrder ∧ 2 ≤ fourStatements.length ∧
      fourStatements.StartsOnLine ⟨15, 3⟩ ∧ firstBySource fourStatements ⟨15, 3⟩ = some 2 ∧
      ¬ fourStatements.StartsOnLine ⟨12, 4⟩ ∧ (∃ p ∈ fourStatements, 12 ≤ p.start.line) ∧
      (firstBySource fourStatements ⟨12, 4⟩ = some 0 ∨
        firstBySource fourStatements ⟨12, 4⟩ = some 1) ∧
      firstBySource fourStatements ⟨17, 0⟩ = none := by
  have horder := consecutive_fourStatements.inSourceOrder
  have hlen : 2 ≤ fourStatements.length := by decide
  have hline : fourStatements.StartsOnLine ⟨15, 3⟩ := by decide
  have hmissed : ¬ fourStatements.StartsOnLine ⟨12, 4⟩ := by decide
  have hbehind : ∃ p ∈ fourStatements, 12 ≤ p.start.line := by decide
  obtain ⟨-, hon, -⟩ := firstBySource_settled horder hlen ⟨15, 3⟩
  obtain ⟨-, -, hbetween⟩ := firstBySource_settled horder hlen ⟨12, 4⟩
  obtain ⟨hnone, -⟩ := firstBySource_settled horder hlen ⟨17, 0⟩
  obtain ⟨i, hfound, hlast⟩ := hon hline
  have hi : i + 1 = 3 := horder.lastIndex_behind_iff.1 hlast
  obtain rfl : i = 2 := by omega
  refine ⟨horder, hlen, hline, hfound, hmissed, hbehind, ?_, hnone.2 (by decide)⟩
  rcases hbetween hmissed hbehind with ⟨j, hlast', hone⟩ | ⟨-, hfirst⟩
  · have hj : j + 1 = 1 := horder.lastIndex_behind_iff.1 hlast'
    obtain rfl : j = 0 := by omega
    exact hone
  · exact Or.inl hfirst

/-! ## When it is the last point behind -/

/-- With two or more points, the search finds what is at or before a position exactly if some point
starts there on the line of the position, or the halving lands on the last point there. If all points
start behind the position, it finds the first one. Otherwise it finds the point behind the last one at
or before the position, and nothing if there is none. -/
theorem firstBySource_lastBehind (h : points.InSourceOrder) (hlen : 2 ≤ points.length)
    (position : LinePosition) :
    (points.LastBehind position (firstBySource points position) ↔
      points.StartsOnLine position ∨
        ∃ i, points.LastIndex (fun p => p.IsBehind position) i ∧ LandsOn i points.length) ∧
    ((∀ p ∈ points, position < p.start) → firstBySource points position = some 0) ∧
    ∀ i, points.LastIndex (fun p => p.IsBehind position) i →
      ¬ (points.StartsOnLine position ∨ LandsOn i points.length) →
      firstBySource points position = if i + 1 < points.length then some (i + 1) else none := by
  have hne : points ≠ [] := List.length_pos_iff.1 (by omega)
  refine ⟨?_, firstBySource_of_front h hne, fun i hlast hmissed => ?_⟩
  · rcases h.lastIndex_or_front position with ⟨i, hlast⟩ | hfront
    · have hlands : (∃ j, points.LastIndex (fun p => p.IsBehind position) j ∧
          LandsOn j points.length) ↔ LandsOn i points.length :=
        ⟨fun ⟨j, hlast', hlands⟩ => hlast'.unique hlast ▸ hlands, fun hlands => ⟨i, hlast, hlands⟩⟩
      rw [hlast.lastBehind_iff, hlands, hlast.firstBySource_eq_some_iff h]
    · rw [firstBySource_of_front h hne hfront]
      refine iff_of_false (not_lastIndex_of_front hfront) ?_
      rintro (hline | ⟨i, hlast, -⟩)
      · obtain ⟨p, hp, hbehind⟩ := hline.exists_isBehind
        exact not_isBehind_iff.2 (hfront p hp) hbehind
      · exact not_lastIndex_of_front hfront hlast
  · rw [hlast.firstBySource_eq h, if_neg hmissed]

/-- The first of four statements is the last point behind a later line of it. -/
theorem lastIndex_insideFirst :
    fourStatements.LastIndex (fun p => p.IsBehind insideFirst.start) 0 :=
  consecutive_fourStatements.inSourceOrder.lastIndex_behind_iff.2
    (startsIn_insideFirst.countBehind_eq consecutive_fourStatements.inSourceOrder).symm

/-- For the position inside of the first statement neither is the case. -/
theorem not_found_insideFirst :
    ¬ (fourStatements.StartsOnLine insideFirst.start ∨ LandsOn 0 fourStatements.length) := by
  decide +kernel

/-- The second statement is found there, and the first one in front of all. -/
theorem firstBySource_lastBehind_of_insideFirst :
    fourStatements.InSourceOrder ∧ 2 ≤ fourStatements.length ∧
      fourStatements.LastIndex (fun p => p.IsBehind insideFirst.start) 0 ∧
      ¬ (fourStatements.StartsOnLine insideFirst.start ∨ LandsOn 0 fourStatements.length) ∧
      firstBySource fourStatements insideFirst.start = some 1 ∧
      (∀ p ∈ fourStatements, ⟨5, 0⟩ < p.start) ∧ firstBySource fourStatements ⟨5, 0⟩ = some 0 := by
  have horder := consecutive_fourStatements.inSourceOrder
  have hlen : 2 ≤ fourStatements.length := by decide
  have hfront : ∀ p ∈ fourStatements, (⟨5, 0⟩ : LinePosition) < p.start := by decide
  obtain ⟨-, -, hmissed⟩ := firstBySource_lastBehind horder hlen insideFirst.start
  obtain ⟨-, hfirst, -⟩ := firstBySource_lastBehind horder hlen ⟨5, 0⟩
  exact ⟨horder, hlen, lastIndex_insideFirst, not_found_insideFirst,
    hmissed 0 lastIndex_insideFirst not_found_insideFirst, hfront, hfirst hfront⟩

/-- So what is found need not be what is at or before the position. -/
theorem not_forall_lastBehind :
    ¬ ∀ (points : Stream) (position : LinePosition), points.InSourceOrder → 2 ≤ points.length →
      points.LastBehind position (firstBySource points position) := by
  intro h
  have horder := consecutive_fourStatements.inSourceOrder
  have hfound := h fourStatements insideFirst.start horder (by decide)
  rw [lastIndex_insideFirst.lastBehind_iff,
    lastIndex_insideFirst.firstBySource_eq_some_iff horder] at hfound
  exact not_found_insideFirst hfound

end Retrace.Stream
