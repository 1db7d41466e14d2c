import Retrace.Proofs.Stream.Bounds

/-!
# Spans that end later

A covering run begins where its span starts, and takes points until one of them reaches the end of the
span. Nothing is assumed about the points: they may be in any order, and their texts may overlap, lie
in one another or stop before they start.

* `covering_eq_through` : the run is what a scan from its first point on takes (`through`), as the scan
  goes on to the end of the stream if no point reaches;
* `scannedTo_through` : how far a scan gets (`ScannedTo`), by induction on the points that it passes;
* `through_mono` : a scan for a later position only goes further.

`covering_widened` puts the three together.
-/

namespace Retrace.Stream

variable {points : Stream} {position stop stop' : LinePosition} {p : SequencePoint}

/-- The points through the first one that ends at or behind a position, or all of them if none does. -/
def through (position : LinePosition) : Stream → Stream
  | [] => []
  | p :: rest => if p.IsAhead position then [p] else p :: through position rest

/-- A point is not ahead of a position if it ends in front of it. -/
theorem not_isAhead_iff : ¬ p.IsAhead position ↔ p.stop < position := by
  rw [SequencePoint.IsAhead, ← LinePosition.not_lt, Decidable.not_not]

/-- The scan takes at least the point that it starts from. -/
theorem through_ne_nil (position : LinePosition) (p : SequencePoint) (rest : Stream) :
    through position (p :: rest) ≠ [] := by
  rw [through]
  split <;> exact List.cons_ne_nil _ _

/-- The scan takes the points up to the first one that is ahead of the position, this one included. -/
theorem through_eq_take (position : LinePosition) (points : Stream) :
    through position points = points.take ((points.findIdx fun p => p.IsAhead position) + 1) := by
  induction points with
  | nil => rfl
  | cons p rest ih =>
    rw [through, List.findIdx_cons]
    by_cases hahead : p.IsAhead position
    · rw [if_pos hahead, decide_eq_true hahead]
      rfl
    · rw [if_neg hahead, decide_eq_false hahead, ih]
      rfl

/-- A run that is found is what a scan from its first point on takes. The bound that keeps the run in
the stream changes nothing about it. -/
theorem covering_eq_through {span : LineSpan} {first : Nat}
    (hfirst : firstBySource points span.start = some first) :
    covering points span = through span.stop (points.drop first) := by
  rw [covering, coveringBounds?, hfirst, through_eq_take]
  refine List.take_eq_take_iff.2 ?_
  rw [indexAhead, List.length_drop]
  omega

/-- For a later position, a scan takes what it takes for an earlier one, and perhaps more. -/
theorem through_mono (points : Stream) (h : stop ≤ stop') :
    through stop points <+: through stop' points := by
  induction points with
  | nil => exact List.prefix_refl _
  | cons p rest ih =>
    rw [through, through]
    by_cases hahead' : p.IsAhead stop'
    · -- what reaches the later position reaches the earlier one
      have hahead : p.IsAhead stop := LinePosition.le_trans h hahead'
      simp only [if_pos hahead, if_pos hahead']
      exact List.prefix_refl _
    · rw [if_neg hahead']
      split
      · exact List.cons_prefix_cons.2 ⟨rfl, List.nil_prefix⟩
      · exact List.cons_prefix_cons.2 ⟨rfl, ih⟩

/-- How far a scan for a position gets: no point but the last one that it takes reaches the position,
and if even the last one does not, there are no points left. -/
structure ScannedTo (points : Stream) (position : LinePosition) (part : Stream) : Prop where
  front : part <+: points
  short : ∀ p ∈ part.dropLast, p.stop < position
  rest : ∀ p ∈ part.getLast?, p.stop < position → part = points

/-- A point that does not reach the position is passed. -/
theorem ScannedTo.cons {rest part : Stream} (h : rest.ScannedTo position part)
    (hnext : part = [] → rest = []) (hshort : p.stop < position) :
    ScannedTo (p :: rest) position (p :: part) := by
  refine ⟨List.cons_prefix_cons.2 ⟨rfl, h.front⟩, ?_, ?_⟩
  · intro q hq
    cases part with
    | nil => cases hq
    | cons next others =>
      rw [List.dropLast_cons_of_ne_nil (List.cons_ne_nil next others)] at hq
      rcases List.mem_cons.1 hq with rfl | hq
      · exact hshort
      · exact h.short q hq
  · intro q hq hlast
    cases part with
    | nil => rw [hnext rfl]
    | cons next others =>
      rw [List.getLast?_cons_of_ne_nil (List.cons_ne_nil next others)] at hq
      rw [h.rest q hq hlast]

/-- What the scan takes is told by that. -/
theorem scannedTo_through (position : LinePosition) (points : Stream) :
    points.ScannedTo position (through position points) := by
  induction points with
  | nil => exact ⟨List.nil_prefix, nofun, nofun⟩
  | cons p rest ih =>
    rw [through]
    by_cases hahead : p.IsAhead position
    · rw [if_pos hahead]
      refine ⟨List.cons_prefix_cons.2 ⟨rfl, List.nil_prefix⟩, nofun, ?_⟩
      rintro q ⟨⟩ hshort
      exact absurd hshort (LinePosition.not_lt.2 hahead)
    · rw [if_neg hahead]
      refine ih.cons (fun hnone => ?_) (not_isAhead_iff.1 hahead)
      cases rest with
      | nil => rfl
      | cons next others => exact absurd hnone (through_ne_nil position next others)

/-- A span that starts at the same position and ends later has a covering run that begins with the
other one. Every covering run is what a scan from the boundary at the start of its span gets, and it
is empty only if there is no boundary. -/
theorem covering_widened (points : Stream) :
    (∀ start stop stop', stop ≤ stop' →
      covering points ⟨start, stop⟩ <+: covering points ⟨start, stop'⟩) ∧
    ∀ span : LineSpan,
      (covering points span = [] ↔ firstBySource points span.start = none) ∧
      ∀ first ∈ firstBySource points span.start,
        ScannedTo (points.drop first) span.stop (covering points span) := by
  refine ⟨fun start stop stop' hle => ?_, fun span => ⟨?_, fun first hfirst => ?_⟩⟩
  · cases hfirst : firstBySource points start with
    | none => simp [covering, coveringBounds?, hfirst]
    | some first =>
      rw [covering_eq_through hfirst, covering_eq_through hfirst]
      exact through_mono _ hle
  · cases hfirst : firstBySource points span.start with
    | none => simp [covering, coveringBounds?, hfirst]
    | some first =>
      have hlt := firstBySource_lt_length hfirst
      rw [covering_eq_through hfirst, List.drop_eq_getElem_cons hlt]
      exact iff_of_false (through_ne_nil _ _ _) nofun
  · rw [covering_eq_through hfirst]
    exact scannedTo_through _ _

/-- Five points, of which the third one lies in the text of the second, and the fourth one is out of
order. -/
def nestedPoints : Stream :=
  [⟨0, 5, ⟨1, 0⟩, ⟨2, 0⟩, none, false⟩, ⟨5, 10, ⟨3, 0⟩, ⟨5, 0⟩, none, false⟩,
    ⟨10, 15, ⟨4, 0⟩, ⟨4, 9⟩, none, false⟩, ⟨15, 20, ⟨2, 0⟩, ⟨9, 0⟩, none, false⟩,
    ⟨20, 25, ⟨5, 0⟩, ⟨5, 3⟩, none, false⟩]

/-- From inside the second point, one point reaches into the third, three reach behind both of them, and
none reaches behind all points. -/
theorem covering_widened_of_nested :
    let covered (stop : LinePosition) : Stream := nestedPoints.covering ⟨⟨3, 2⟩, stop⟩
    ¬ nestedPoints.InSourceOrder ∧ firstBySource nestedPoints ⟨3, 2⟩ = some 1 ∧
      covered ⟨4, 5⟩ = run nestedPoints 1 2 ∧ covered ⟨6, 0⟩ = run nestedPoints 1 4 ∧
      covered ⟨10, 0⟩ = nestedPoints.drop 1 ∧
      covered ⟨4, 5⟩ <+: covered ⟨6, 0⟩ ∧ covered ⟨6, 0⟩ <+: covered ⟨10, 0⟩ ∧
      ScannedTo (nestedPoints.drop 1) ⟨6, 0⟩ (covered ⟨6, 0⟩) ∧
      ScannedTo (nestedPoints.drop 1) ⟨10, 0⟩ (covered ⟨10, 0⟩) := by
  intro covered
  have hfirst : firstBySource nestedPoints ⟨3, 2⟩ = some 1 := by decide +kernel
  have hcovered : ∀ stop, covered stop = through stop (nestedPoints.drop 1) := by
    intro stop
    have hstart : firstBySource nestedPoints (LineSpan.mk ⟨3, 2⟩ stop).start = some 1 := hfirst
    exact covering_eq_through hstart
  obtain ⟨hmono, hscanned⟩ := covering_widened nestedPoints
  refine ⟨by decide, hfirst, hcovered ⟨4, 5⟩, hcovered ⟨6, 0⟩, hcovered ⟨10, 0⟩,
    hmono _ _ _ (by decide), hmono _ _ _ (by decide), ?_, ?_⟩
  · exact (hscanned ⟨⟨3, 2⟩, ⟨6, 0⟩⟩).2 1 hfirst
  · exact (hscanned ⟨⟨3, 2⟩, ⟨10, 0⟩⟩).2 1 hfirst

end Retrace.Stream
