import Retrace.Proofs.Stream.Phases

/-!
# Boundaries at a source position

Where the search over source positions ends in a stream that is in the order of its starts. The
binary phase of this search halves by lines and never meets its target, so it lands at the number of
points on earlier lines, or one before that (`landing`). Only the walk looks at characters:

* `firstBySource_eq` : a run begins where the halving by lines lands, or on the last point at or
  before the position if that is later, and nowhere if all points start on earlier lines.

The walk toward the end never looks at the point it starts on. If no point on the position's own line
starts at or before it, the result may therefore be the first point behind the position.
-/

namespace Retrace.Stream

/-- The points are in the order of their starts in the source text. -/
def InSourceOrder (points : Stream) : Prop := points.Pairwise fun p q => p.start ≤ q.start

instance (points : Stream) : Decidable points.InSourceOrder :=
  inferInstanceAs (Decidable (points.Pairwise fun p q => p.start ≤ q.start))

/-- Sanitizing does nothing to visible points in the order of their starts. -/
theorem InSourceOrder.sanitized_eq {points : Stream} (h : points.InSourceOrder)
    (hvisible : ∀ p ∈ points, p.isHidden = false) : points.sanitized = points := by
  have hfilter : points.visible = points :=
    List.filter_eq_self.2 fun p hp => by simp [hvisible p hp]
  rw [sanitized, hfilter]
  exact List.mergeSort_of_pairwise (h.imp decide_eq_true)

/-- How many points start on an earlier line. -/
def countLinesBefore (points : Stream) (line : Nat) : Nat :=
  points.countP fun p => p.start.line < line

/-- How many points start at or before a position. -/
def countBehind (points : Stream) (position : LinePosition) : Nat :=
  points.countP fun p => p.IsBehind position

/-- No more points are counted than there are. -/
theorem countLinesBefore_le_length (points : Stream) (line : Nat) :
    points.countLinesBefore line ≤ points.length :=
  List.countP_le_length

/-- No more points are counted than there are. -/
theorem countBehind_le_length (points : Stream) (position : LinePosition) :
    points.countBehind position ≤ points.length :=
  List.countP_le_length

/-- A position is not at or behind a start if it is in front of it. -/
theorem not_isBehind_iff {p : SequencePoint} {position : LinePosition} :
    ¬ p.IsBehind position ↔ position < p.start := by
  rw [SequencePoint.IsBehind, ← LinePosition.not_lt, Decidable.not_not]

/-- All are counted if all start on earlier lines. -/
theorem countLinesBefore_eq_length_iff {points : Stream} {line : Nat} :
    points.countLinesBefore line = points.length ↔ ∀ p ∈ points, p.start.line < line := by
  simp only [countLinesBefore, List.countP_eq_length, decide_eq_true_eq]

/-- None is counted if the position is in front of all starts. -/
theorem countBehind_eq_zero_iff {points : Stream} {position : LinePosition} :
    points.countBehind position = 0 ↔ ∀ p ∈ points, position < p.start := by
  simp only [countBehind, List.countP_eq_zero, decide_eq_true_eq, not_isBehind_iff]

/-- Some are counted if the position is at or behind a start. -/
theorem countBehind_pos_iff {points : Stream} {position : LinePosition} :
    0 < points.countBehind position ↔ ∃ p ∈ points, p.IsBehind position := by
  simp only [countBehind, List.countP_pos_iff, decide_eq_true_eq]

/-- A point on an earlier line starts before the position. -/
theorem countLinesBefore_le_countBehind (points : Stream) (position : LinePosition) :
    points.countLinesBefore position.line ≤ points.countBehind position := by
  refine List.countP_mono_left fun p _ hp => ?_
  simp only [decide_eq_true_eq] at hp ⊢
  exact Or.inl hp

/-- In order, later points start on no earlier lines. -/
theorem InSourceOrder.line_le {points : Stream} (h : points.InSourceOrder) :
    points.Pairwise fun p q => p.start.line ≤ q.start.line :=
  h.imp LinePosition.line_le

/-- In order, the points that are counted by lines are the first ones. -/
theorem InSourceOrder.lt_countLinesBefore_iff {points : Stream} (h : points.InSourceOrder) {i : Nat}
    {p : SequencePoint} (hp : points[i]? = some p) (line : Nat) :
    i < points.countLinesBefore line ↔ p.start.line < line := by
  refine (lt_countP_iff (h.line_le.imp fun {q r} hle => ?_) hp).trans decide_eq_true_iff
  simp only [decide_eq_true_eq]
  exact fun hlt => Nat.lt_of_le_of_lt hle hlt

/-- In order, the points that are counted by positions are the first ones. -/
theorem InSourceOrder.lt_countBehind_iff {points : Stream} (h : points.InSourceOrder) {i : Nat}
    {p : SequencePoint} (hp : points[i]? = some p) (position : LinePosition) :
    i < points.countBehind position ↔ p.IsBehind position := by
  refine (lt_countP_iff (h.imp fun {q r} hle => ?_) hp).trans decide_eq_true_iff
  simp only [decide_eq_true_eq]
  exact fun hr => LinePosition.le_trans hle hr

/-! ## Turns at a line -/

/-- The search goes on to later points from one on an earlier line. -/
theorem lineTurn_eq_later {line : Nat} {p : SequencePoint} :
    lineTurn line p = .later ↔ p.start.line < line := by
  unfold lineTurn
  split <;> simp_all

/-- It goes on to earlier points from all others. -/
theorem lineTurn_eq_earlier {line : Nat} {p : SequencePoint} :
    lineTurn line p = .earlier ↔ line ≤ p.start.line := by
  unfold lineTurn
  split <;> simp_all

/-- It never stops before its interval is empty. -/
theorem lineTurn_ne_here (line : Nat) (p : SequencePoint) : lineTurn line p ≠ .here := by
  unfold lineTurn
  split <;> simp

/-- In order, a line cuts the stream where the count says. -/
theorem InSourceOrder.cut_line {points : Stream} (h : points.InSourceOrder) (line : Nat) :
    Cut points (lineTurn line) (points.countLinesBefore line) where
  later_iff hp := lineTurn_eq_later.trans (h.lt_countLinesBefore_iff hp line).symm
  earlier_of_lt {i j p q} hij hp hq hturn := by
    rw [lineTurn_eq_earlier] at hturn ⊢
    have hi := h.lt_countLinesBefore_iff hp line
    have hj := h.lt_countLinesBefore_iff hq line
    omega

/-! ## The boundary -/

/-- The index that the boundary search at a source position ends on: where the halving by lines
lands, or the last point at or before the position if that is later. -/
def sourceIndex (points : Stream) (position : LinePosition) : Nat :=
  max (landing (points.countLinesBefore position.line) points.length)
    (points.countBehind position - 1)

/-- A walk toward the end that starts from a point at or before the position stops on the last such
point, if that is not behind it already. -/
theorem InSourceOrder.walkLater_eq_max {points : Stream} (h : points.InSourceOrder)
    {position : LinePosition} {m : Nat} {current : SequencePoint}
    (hcurrent : current.IsBehind position) :
    walkLater points (fun p => p.IsBehind position) m current =
      some ((max m (points.countBehind position - 1) : Nat) : Int) := by
  have hb := points.countBehind_le_length position
  refine walkLater_eq (by simpa using hcurrent) (by omega) (fun j q hj hjl hq => ?_)
    (by omega) fun q hq => ?_
  · simpa using (h.lt_countBehind_iff hq position).1 (by omega)
  · have hnot := mt (h.lt_countBehind_iff hq position).2 (by omega)
    simpa using hnot

/-- In order, this is what the search by source comes to. -/
theorem sourceBoundary_eq {points : Stream} (h : points.InSourceOrder) (hne : points ≠ [])
    (position : LinePosition) :
    sourceBoundary points position = some (points.sourceIndex position : Int) := by
  have hk := points.countLinesBefore_le_length position.line
  have hb := points.countBehind_le_length position
  have hkb := points.countLinesBefore_le_countBehind position
  obtain ⟨first, p, hprobe, hend, hwalk⟩ := boundary_eq_walk (h.cut_line position.line) hne hk
    (fun p => p.IsBehind position) (fun p => p.IsBehind position) (fun p => p.IsBehind position)
  -- no point is ever on the target by its line alone, so that the halving runs to its end
  have hland := probe_middle (h.cut_line position.line)
    (fun q _ => lineTurn_ne_here position.line q) (by omega) hprobe
  rw [← natCast_landing hk] at hland
  rw [sourceBoundary, hwalk]
  cases hend with
  | met _ here => exact absurd here (lineTurn_ne_here _ _)
  | @behind m q hq later le above =>
    have hbehind : q.IsBehind position := Or.inl (lineTurn_eq_later.1 later)
    rw [if_pos (by simpa using hbehind), h.walkLater_eq_max hbehind, sourceIndex,
      ← Int.natCast_inj.1 hland]
  | @ahead c m q hq earlier one_off ge le above =>
    rw [sourceIndex, ← Int.natCast_inj.1 hland]
    by_cases hbehind : q.IsBehind position
    · rw [if_pos (by simpa using hbehind), h.walkLater_eq_max hbehind]
    · have hc := mt (h.lt_countBehind_iff hq position).1 hbehind
      rw [if_neg (by simpa using hbehind), show max m (points.countBehind position - 1) = m by omega]
      refine walkEarlier_eq (by simpa using hbehind) (Nat.le_refl m) (by omega)
        (fun j r hj hjm _ => by omega) fun r hpos hr => ?_
      have hreached : r.IsBehind position :=
        Or.inl ((h.lt_countLinesBefore_iff hr position.line).1 (by omega))
      simpa using hreached

/-- A run that covers a source position begins at the source index, unless all points start on
earlier lines. -/
theorem firstBySource_eq {points : Stream} (h : points.InSourceOrder) (hlen : 2 ≤ points.length)
    (position : LinePosition) :
    firstBySource points position =
      if points.countLinesBefore position.line = points.length then none
      else some (points.sourceIndex position) := by
  have hk := points.countLinesBefore_le_length position.line
  have hb := points.countBehind_le_length position
  have hland := landing_cases hk
  have hbound := sourceBoundary_eq h (by rintro rfl; simp at hlen) position
  obtain ⟨p, q, rest, rfl⟩ : ∃ p q rest, points = p :: q :: rest := by
    match points, hlen with
    | p :: q :: rest, _ => exact ⟨p, q, rest, rfl⟩
  simp only [firstBySource, hbound, Option.bind_some, indexIn, Int.toNat_natCast]
  rw [sourceIndex]
  split
  · rw [if_neg (by omega)]
  · rw [if_pos (by omega)]

end Retrace.Stream
