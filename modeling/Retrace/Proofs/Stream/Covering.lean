import Retrace.Proofs.Stream.Counterpart
import Retrace.Proofs.Stream.Source
import Mathlib.Data.List.Chain

/-!
# The run that covers a span

A span that starts in the text of a point should be covered by the points from this one through the
first one that reaches its end. `covering_of_touched` says when it is. From the line that the point
starts on it always is. From a later line of its text the halving by lines has passed the point
already, so it depends on where the halving lands (`LandsOn`): on the point, and the covering run is
the right one; behind it, and the run begins one point too late; behind the last of several points,
and there is no run at all.
-/

namespace Retrace.Stream

variable {points : Stream} {position : LinePosition} {i : Nat} {p q : SequencePoint}

/-- The texts of the points follow each other: none is empty, and each ends where the next one starts
or before. -/
structure Consecutive (points : Stream) : Prop where
  start_lt_stop : ∀ p ∈ points, p.start < p.stop
  stop_le_start : points.IsChain fun p q => p.stop ≤ q.start

/-- Each text ends before all later ones start. -/
theorem Consecutive.pairwise (h : points.Consecutive) :
    points.Pairwise fun p q => p.stop ≤ q.start := by
  obtain ⟨hrange, hchain⟩ := h
  induction hchain with
  | nil => exact .nil
  | singleton p => exact List.pairwise_singleton _ p
  | cons_cons hnext hchain ih =>
    next p next rest =>
    obtain ⟨-, hrest⟩ := List.forall_mem_cons.1 hrange
    have hpairwise := ih hrest
    refine List.pairwise_cons.2 ⟨List.forall_mem_cons.2 ⟨hnext, ?_⟩, hpairwise⟩
    intro q hq
    -- the next point ends behind its start, and before `q` starts
    have hlt := hrest next List.mem_cons_self
    have hle := (List.pairwise_cons.1 hpairwise).1 q hq
    rw [LinePosition.le_iff] at hnext hle ⊢
    rw [LinePosition.lt_iff] at hlt
    omega

/-- Each statement ends before the later ones start. -/
theorem Consecutive.stop_le (h : points.Consecutive) {j : Nat} (hij : i < j)
    (hp : points[i]? = some p) (hq : points[j]? = some q) : p.stop ≤ q.start := by
  obtain ⟨hi, rfl⟩ := List.getElem?_eq_some_iff.1 hp
  obtain ⟨hj, rfl⟩ := List.getElem?_eq_some_iff.1 hq
  exact List.pairwise_iff_getElem.1 h.pairwise i j hi hj hij

/-- Statements that follow on one another are in order. -/
theorem Consecutive.inSourceOrder (h : points.Consecutive) : points.InSourceOrder := by
  refine h.pairwise.imp_of_mem ?_
  intro p q hp _ hle
  have hlt := h.start_lt_stop p hp
  rw [LinePosition.le_iff] at hle ⊢
  rw [LinePosition.lt_iff] at hlt
  omega

/-! ## Where a covering run begins -/

/-- The position is at the start of the point at an index or behind it, and in front of the next
point. -/
structure StartsIn (points : Stream) (position : LinePosition) (i : Nat) (p : SequencePoint) :
    Prop where
  at_ : points[i]? = some p
  start_le : p.start ≤ position
  lt_next : ∀ next, points[i + 1]? = some next → position < next.start

/-- The point that a position is in is one of the stream. -/
theorem StartsIn.lt_length (h : points.StartsIn position i p) : i < points.length :=
  (List.getElem?_eq_some_iff.1 h.at_).1

/-- It is the last one at or in front of the position. -/
theorem StartsIn.countBehind_eq (horder : points.InSourceOrder) (h : points.StartsIn position i p) :
    points.countBehind position = i + 1 := by
  have hlower : i < points.countBehind position :=
    (horder.lt_countBehind_iff h.at_ position).2 h.start_le
  refine Nat.le_antisymm ?_ hlower
  rcases Nat.lt_or_ge (i + 1) points.length with hlt | hge
  · have hnext : points[i + 1]? = some points[i + 1] := List.getElem?_eq_getElem hlt
    have hahead : ¬ points[i + 1].IsBehind position := not_isBehind_iff.2 (h.lt_next _ hnext)
    exact Nat.le_of_not_lt (mt (horder.lt_countBehind_iff hnext position).1 hahead)
  · exact Nat.le_trans (points.countBehind_le_length position) hge

/-- On the line that the point starts on, no more than the points in front of it start on earlier
lines. -/
theorem StartsIn.countLinesBefore_le (horder : points.InSourceOrder)
    (h : points.StartsIn position i p) (hline : p.start.line = position.line) :
    points.countLinesBefore position.line ≤ i :=
  Nat.le_of_not_lt fun hlt =>
    Nat.ne_of_lt ((horder.lt_countLinesBefore_iff h.at_ position.line).1 hlt) hline

/-- On a later line, the point is the last one that starts on an earlier line. -/
theorem StartsIn.countLinesBefore_eq (horder : points.InSourceOrder)
    (h : points.StartsIn position i p) (hline : p.start.line ≠ position.line) :
    points.countLinesBefore position.line = i + 1 := by
  have hlt : p.start.line < position.line :=
    Nat.lt_of_le_of_ne (LinePosition.line_le h.start_le) hline
  have hlower := (horder.lt_countLinesBefore_iff h.at_ position.line).2 hlt
  have hupper := points.countLinesBefore_le_countBehind position
  rw [h.countBehind_eq horder] at hupper
  exact Nat.le_antisymm hupper hlower

/-- From a later line of its text, the search over `n` points finds the point at index `i`: there is no
other point, or there are later ones and the halving rounds so that it lands on this one. -/
def LandsOn (i n : Nat) : Prop := n = 1 ∨ i + 1 < n ∧ landing (i + 1) n = i

instance (i n : Nat) : Decidable (LandsOn i n) :=
  inferInstanceAs (Decidable (n = 1 ∨ i + 1 < n ∧ landing (i + 1) n = i))

/-- The last of several points is never found from a later line of its text. -/
theorem not_landsOn_last {n : Nat} (h : n ≠ 1) : ¬ LandsOn (n - 1) n := by
  rintro (hone | ⟨hlt, -⟩)
  · exact h hone
  · omega

/-- With four points, the second one is found and the first one is not. -/
example : ¬ LandsOn 0 4 ∧ LandsOn 1 4 ∧ LandsOn 2 4 ∧ ¬ LandsOn 3 4 := by cbv

/-- A covering run begins at the point that the position is in, if the position is on the line that the
point starts on or the halving lands on the point. Otherwise it begins at the next point, if there is
one. -/
theorem StartsIn.firstBySource_eq (horder : points.InSourceOrder)
    (h : points.StartsIn position i p) :
    firstBySource points position =
      if p.start.line = position.line ∨ LandsOn i points.length then some i
      else if i + 1 < points.length then some (i + 1)
      else none := by
  have hi := h.lt_length
  rcases Nat.lt_or_ge points.length 2 with hone | hlen
  · obtain ⟨only, rfl⟩ := List.length_eq_one_iff.1 (show points.length = 1 by omega)
    obtain rfl : i = 0 := by simpa using hi
    exact (if_pos (Or.inr (Or.inl rfl))).symm
  have hland := landing_cases (points.countLinesBefore_le_length position.line)
  rw [Stream.firstBySource_eq horder hlen, sourceIndex, h.countBehind_eq horder]
  by_cases hline : p.start.line = position.line
  · -- on the line the walk goes on up to the point itself
    have hk := h.countLinesBefore_le horder hline
    rw [if_neg (by omega), if_pos (Or.inl hline)]
    congr 1
    omega
  · -- on a later line the point is the last one in front, and it is taken only if the halving lands on it
    have hk := h.countLinesBefore_eq horder hline
    rw [hk] at hland ⊢
    rcases Nat.lt_or_ge (i + 1) points.length with hlt | hge
    · rw [if_neg (by omega), if_pos hlt]
      rcases hland with hbehind | ⟨hon, -⟩
      · have hpast : ¬ LandsOn i points.length := by
          rintro (hone | ⟨-, hon⟩)
          · omega
          · omega
        rw [if_neg (not_or.2 ⟨hline, hpast⟩), hbehind]
        congr 1
        omega
      · have hlands : LandsOn i points.length := Or.inr ⟨hlt, Nat.succ.inj hon⟩
        rw [if_pos (Or.inr hlands)]
        congr 1
        omega
    · have hlast : ¬ LandsOn i points.length := by
        rw [show i = points.length - 1 from by omega]
        exact not_landsOn_last (by omega)
      rw [if_pos (by omega), if_neg (not_or.2 ⟨hline, hlast⟩), if_neg (by omega)]

/-! ## Where it ends -/

/-- The first point from an index on that ends at or behind a position. -/
structure FirstReaching (points : Stream) (i : Nat) (position : LinePosition) (j : Nat)
    (q : SequencePoint) : Prop where
  le : i ≤ j
  at_ : points[j]? = some q
  le_stop : position ≤ q.stop
  lt_of_lt : ∀ k r, i ≤ k → k < j → points[k]? = some r → r.stop < position

/-- The walk ahead ends at the first point that reaches the position. -/
theorem FirstReaching.indexAhead_eq {j : Nat} (h : points.FirstReaching i position j q) :
    indexAhead points i position = j := by
  obtain ⟨hij, hq, hstop, hbefore⟩ := h
  obtain ⟨hj, rfl⟩ := List.getElem?_eq_some_iff.1 hq
  have hlength : j - i < (points.drop i).length := by
    rw [List.length_drop]
    omega
  have hfind : ((points.drop i).findIdx fun p => p.IsAhead position) = j - i := by
    refine (List.findIdx_eq hlength).2 ⟨?_, ?_⟩
    · simp only [List.getElem_drop, show i + (j - i) = j from by omega]
      exact decide_eq_true hstop
    · intro k hk
      have hlt : i + k < points.length := by omega
      have hshort := hbefore (i + k) points[i + k] (by omega) (by omega)
        (List.getElem?_eq_getElem hlt)
      rw [List.getElem_drop]
      exact decide_eq_false fun hahead => LinePosition.not_lt.2 hahead hshort
  rw [indexAhead, hfind]
  omega

/-- The first point that reaches a position from the next index on is the same one, unless this was
the point at the index itself: then it is the next point. -/
theorem FirstReaching.next (hpoints : points.Consecutive) {j : Nat}
    (h : points.FirstReaching i position j q) (hnext : i + 1 < points.length) :
    ∃ r, points.FirstReaching (i + 1) position (max j (i + 1)) r := by
  rcases Nat.eq_or_lt_of_le h.le with rfl | hlt
  · have hr : points[i + 1]? = some points[i + 1] := List.getElem?_eq_getElem hnext
    have hapart := hpoints.stop_le (Nat.lt_succ_self i) h.at_ hr
    have hrange := hpoints.start_lt_stop _ (List.mem_of_getElem? hr)
    have hreach := h.le_stop
    rw [Nat.max_eq_right (Nat.le_succ i)]
    refine ⟨_, Nat.le_refl _, hr, ?_, fun k r hik hki => absurd hik (Nat.not_le.2 hki)⟩
    rw [LinePosition.le_iff] at hapart hreach ⊢
    rw [LinePosition.lt_iff] at hrange
    omega
  · rw [Nat.max_eq_left hlt]
    exact ⟨q, hlt, h.at_, h.le_stop, fun k r hik hkj => h.lt_of_lt k r (by omega) hkj⟩

/-- A run that is not empty begins with the point at its first index. -/
theorem head?_run {points : Stream} {i stop : Nat} (h : i < stop) :
    (run points i stop).head? = points[i]? := by
  rw [run, List.head?_take, if_neg (by omega), List.head?_drop]

/-- What covers a span goes from what the search finds to the first point that reaches its end. -/
theorem covering_of_firstBySource {span : LineSpan} {j : Nat}
    (hfirst : firstBySource points span.start = some i)
    (hlast : points.FirstReaching i span.stop j q) :
    covering points span = run points i (j + 1) := by
  have hj := (List.getElem?_eq_some_iff.1 hlast.at_).1
  have hbounds : coveringBounds? points span = some (i, j + 1) := by
    rw [coveringBounds?, hfirst, Option.map_some, hlast.indexAhead_eq,
      Nat.min_eq_left (Nat.succ_le_of_lt hj)]
  rw [covering, hbounds]

/-! ## Covering runs -/

/-- The points that a span touches, if it starts in the text of the point at index `i` and the first
point from there on that reaches its end is at index `j`. The covering run consists of exactly these
if the span starts on the line that the point starts on, or the halving lands on the point. Otherwise
it begins at the next point and has at least that one, and without a next point it is empty. -/
theorem covering_of_touched {span : LineSpan} {j : Nat} (hpoints : points.Consecutive)
    (hstart : points.StartsIn span.start i p) (hstop : points.FirstReaching i span.stop j q) :
    (covering points span = run points i (j + 1) ↔
      p.start.line = span.start.line ∨ LandsOn i points.length) ∧
    (¬ (p.start.line = span.start.line ∨ LandsOn i points.length) → covering points span =
      if i + 1 < points.length then run points (i + 1) (max j (i + 1) + 1) else []) := by
  have hfirst := hstart.firstBySource_eq hpoints.inSourceOrder
  have hmissed : ¬ (p.start.line = span.start.line ∨ LandsOn i points.length) →
      covering points span =
        if i + 1 < points.length then run points (i + 1) (max j (i + 1) + 1) else [] := by
    intro hfound
    rw [if_neg hfound] at hfirst
    by_cases hnext : i + 1 < points.length
    · rw [if_pos hnext] at hfirst ⊢
      obtain ⟨r, hlast⟩ := hstop.next hpoints hnext
      exact covering_of_firstBySource hfirst hlast
    · rw [if_neg hnext] at hfirst ⊢
      rw [covering, coveringBounds?, hfirst]
      rfl
  refine ⟨⟨?_, ?_⟩, hmissed⟩
  · -- a run that begins at the next point does not begin at this one
    intro hcovering
    refine Decidable.byContradiction fun hfound => ?_
    have hhead := congrArg List.head? ((hmissed hfound).symm.trans hcovering)
    rw [head?_run (Nat.lt_succ_of_le hstop.le), hstart.at_] at hhead
    split at hhead
    · next hnext =>
      rw [head?_run (by omega)] at hhead
      have hlt := hstart.lt_next p hhead
      have hle := hstart.start_le
      rw [LinePosition.lt_iff] at hlt
      rw [LinePosition.le_iff] at hle
      omega
    · cases hhead
  · intro hfound
    rw [if_pos hfound] at hfirst
    exact covering_of_firstBySource hfirst hstop

/-- Four statements, of which the first one has a text of several lines. -/
def fourStatements : Stream :=
  [⟨0, 5, ⟨10, 0⟩, ⟨13, 20⟩, none, false⟩, ⟨5, 10, ⟨14, 0⟩, ⟨14, 20⟩, none, false⟩,
    ⟨10, 15, ⟨15, 0⟩, ⟨15, 20⟩, none, false⟩, ⟨15, 20, ⟨16, 0⟩, ⟨16, 20⟩, none, false⟩]

/-- A span inside the first of the four statements, on a later line of it. -/
def insideFirst : LineSpan := ⟨⟨12, 4⟩, ⟨12, 9⟩⟩

/-- The four statements follow on one another. -/
theorem consecutive_fourStatements : fourStatements.Consecutive := ⟨by decide, by decide⟩

/-- The span starts inside of the first statement. -/
theorem startsIn_insideFirst :
    fourStatements.StartsIn insideFirst.start 0 ⟨0, 5, ⟨10, 0⟩, ⟨13, 20⟩, none, false⟩ where
  at_ := rfl
  start_le := by decide
  lt_next := by
    rintro next ⟨⟩
    decide

/-- It ends there too. -/
theorem firstReaching_insideFirst :
    fourStatements.FirstReaching 0 insideFirst.stop 0 ⟨0, 5, ⟨10, 0⟩, ⟨13, 20⟩, none, false⟩ where
  le := Nat.le_refl 0
  at_ := rfl
  le_stop := by decide
  lt_of_lt := fun _ _ _ hlt => absurd hlt (Nat.not_lt_zero _)

/-- It is not on the line where the statement starts, and the halving does not come down on it. -/
theorem not_landsOn_insideFirst :
    ¬ ((10 : Nat) = insideFirst.start.line ∨ LandsOn 0 fourStatements.length) := by
  decide +kernel

/-- The covering run of this span is the second statement. -/
theorem covering_of_touched_of_insideFirst :
    fourStatements.Consecutive ∧ fourStatements.StartsIn insideFirst.start 0
        ⟨0, 5, ⟨10, 0⟩, ⟨13, 20⟩, none, false⟩ ∧
      fourStatements.FirstReaching 0 insideFirst.stop 0
        ⟨0, 5, ⟨10, 0⟩, ⟨13, 20⟩, none, false⟩ ∧
      fourStatements.covering insideFirst = [⟨5, 10, ⟨14, 0⟩, ⟨14, 20⟩, none, false⟩] := by
  have htouched := covering_of_touched consecutive_fourStatements startsIn_insideFirst
    firstReaching_insideFirst
  exact ⟨consecutive_fourStatements, startsIn_insideFirst, firstReaching_insideFirst,
    htouched.2 not_landsOn_insideFirst⟩

/-- So the covering run of a span inside the text of a single point need not be that point. -/
theorem not_forall_covering_touched :
    ¬ ∀ (points : Stream) (span : LineSpan) (i j : Nat) (p q : SequencePoint),
      points.Consecutive → span.start ≤ span.stop → points.StartsIn span.start i p →
      points.FirstReaching i span.stop j q → covering points span = run points i (j + 1) := by
  intro h
  have hrun := h fourStatements insideFirst 0 0 _ _ consecutive_fourStatements (by decide)
    startsIn_insideFirst firstReaching_insideFirst
  have hfirst := startsIn_insideFirst.firstBySource_eq consecutive_fourStatements.inSourceOrder
  rw [if_neg not_landsOn_insideFirst] at hfirst
  obtain ⟨r, hlast⟩ := firstReaching_insideFirst.next consecutive_fourStatements (by decide)
  rw [covering_of_firstBySource hfirst hlast] at hrun
  exact absurd hrun (by decide)

end Retrace.Stream
