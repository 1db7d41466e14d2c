import Retrace.Proofs.Session.Selection
import Retrace.Proofs.Stream.Counterpart
import Retrace.Proofs.Stream.Source

/-!
# Regions that the symbols hide

A compiler hides code that no source text belongs to, and hidden points are dropped before anything
is looked up. What is left is a stream with gaps. A diagnostic in such a region has no place in the
authored source, yet the searches see nothing but the neighbours of the gap: `place_of_hidden` says
when one of them is taken for it. That depends on the number of points, and on how many of them are in
front of the gap (`Strays`): always in front of the first point, never behind the last of several, and
between two points as the halving of the search rounds.
-/

namespace Retrace

namespace Stream

/-- No part of a range overlaps the offsets from `start` to `stop`. -/
def Hides (points : Stream) (start stop : Nat) : Prop :=
  ∀ p ∈ points, ¬ (p.offset < stop ∧ start < p.endOffset)

instance (points : Stream) (start stop : Nat) : Decidable (points.Hides start stop) :=
  inferInstanceAs (Decidable (∀ p ∈ points, ¬ (p.offset < stop ∧ start < p.endOffset)))

/-- No range is empty. -/
def HasRanges (points : Stream) : Prop := ∀ p ∈ points, p.offset < p.endOffset

instance (points : Stream) : Decidable points.HasRanges :=
  inferInstanceAs (Decidable (∀ p ∈ points, p.offset < p.endOffset))

/-- Each range ends before the later ones start. -/
def HasDisjointRanges (points : Stream) : Prop :=
  points.Pairwise fun p q => p.endOffset ≤ q.offset

instance (points : Stream) : Decidable points.HasDisjointRanges :=
  inferInstanceAs (Decidable (points.Pairwise fun p q => p.endOffset ≤ q.offset))

/-- The place of the neighbour that a gap at `start` is taken for, if there is one. -/
def neighbour? (points : Stream) (start : Nat) : Option ResolvedLocation :=
  if Strays (points.countBefore start) points.length then
    points[points.countBefore start - 1]?.bind fun p => (place [p]).toOption
  else none

/-- In front of all points, it is the first one. -/
theorem neighbour?_of_front {points : Stream} {start : Nat} (h : points.countBefore start = 0) :
    points.neighbour? start = points.head?.bind fun p => (place [p]).toOption := by
  rw [neighbour?, h]
  rcases points with _ | ⟨p, rest⟩
  · have hnone : ¬ Strays 0 0 := not_strays_self (by decide)
    exact if_neg hnone
  · rw [if_pos (strays_zero (by simp))]
    rfl

/-- Behind all of several points, there is none. -/
theorem neighbour?_of_behind {points : Stream} {start : Nat}
    (h : points.countBefore start = points.length) (hone : points.length ≠ 1) :
    points.neighbour? start = none := by
  rw [neighbour?, h, if_neg (not_strays_self hone)]

/-- What is hidden meets no range. -/
theorem Hides.within_eq_nil {points : Stream} {start stop : Nat} (h : points.Hides start stop)
    (hranges : points.HasRanges) : points.within start stop = [] := by
  refine List.filter_eq_nil_iff.2 fun p hp => ?_
  have hrange := hranges p hp
  have hhides := h p hp
  simp only [decide_eq_true_eq]
  omega

/-- The counterpart of a hidden run is the neighbour that it is taken for. -/
theorem place_counterpart_of_hidden {run authored : Stream} {start stop : Nat}
    (horder : authored.InOffsetOrder) (hranges : authored.HasRanges)
    (hrun : run.offsets? = some (start, stop)) (hlt : start < stop)
    (hidden : authored.Hides start stop) :
    (run.counterpart authored).place.toOption = authored.neighbour? start := by
  rw [counterpart_of_gap horder hrun hlt (hidden.within_eq_nil hranges), neighbour?]
  split
  · cases authored[authored.countBefore start - 1]? with
    | none => rfl
    | some p => rfl
  · rfl

end Stream

namespace Session

variable {ν : Type} {s : Session ν} {d : Diagnostic} {unit : Nat} {span : LineSpan}
  {run authored : Stream} {start stop : Nat}

/-- The place of a diagnostic in a hidden region, as it follows from the collaborators. -/
theorem direct_of_hidden (htarget : s.target? d = some (unit, span))
    (hcarried : s.carried? unit span = some (run, authored))
    (horder : authored.InOffsetOrder) (hranges : authored.HasRanges)
    (hrun : run.offsets? = some (start, stop)) (hlt : start < stop)
    (hidden : authored.Hides start stop) :
    s.direct d = (authored.neighbour? start).or (s.inDump unit span) := by
  have hmapped : s.mapped unit span = authored.neighbour? start := by
    rw [mapped, hcarried]
    exact Stream.place_counterpart_of_hidden horder hranges hrun hlt hidden
  rw [Session.direct, htarget, ← hmapped]
  rfl

/-- A diagnostic in a hidden region has its place in the written copy, unless the search strays: then
it is the place of the point in front of the region, or of the first point of all. It always strays in
front of all points, and never behind all of several. -/
theorem place_of_hidden (requests : List Request) (htarget : s.target? d = some (unit, span))
    (hcarried : s.carried? unit span = some (run, authored))
    (horder : authored.InOffsetOrder) (hranges : authored.HasRanges)
    (hrun : run.offsets? = some (start, stop)) (hlt : start < stop)
    (hidden : authored.Hides start stop) :
    ((s.fresh.after requests).resolve d).1 =
        (authored.neighbour? start).or (s.inDump unit span) ∧
      (authored.countBefore start = 0 → ((s.fresh.after requests).resolve d).1 =
        (authored.head?.bind fun p => (Stream.place [p]).toOption).or (s.inDump unit span)) ∧
      (authored.countBefore start = authored.length → authored.length ≠ 1 →
        ((s.fresh.after requests).resolve d).1 = s.inDump unit span) := by
  have hplace : ((s.fresh.after requests).resolve d).1 =
      (authored.neighbour? start).or (s.inDump unit span) := by
    rw [s.resolve_after_fst requests d]
    exact direct_of_hidden htarget hcarried horder hranges hrun hlt hidden
  refine ⟨hplace, fun hfront => ?_, fun hbehind hone => ?_⟩
  · rw [hplace, Stream.neighbour?_of_front hfront]
  · rw [hplace, Stream.neighbour?_of_behind hbehind hone, Option.none_or]

/-- The reconstructed points of `partlyHidden`. -/
def reconstructedPoints : Stream :=
  [⟨0, 5, ⟨1, 0⟩, ⟨1, 9⟩, none, false⟩, ⟨5, 10, ⟨2, 0⟩, ⟨2, 9⟩, none, false⟩,
    ⟨10, 15, ⟨3, 0⟩, ⟨3, 9⟩, none, false⟩]

/-- A session on a function with three points, the one in the middle hidden. -/
def partlyHidden : Session Unit :=
  ofFunction
    [⟨0, 5, ⟨10, 0⟩, ⟨10, 9⟩, "a.cs", false⟩, .hidden 5 10 "a.cs",
      ⟨10, 15, ⟨12, 0⟩, ⟨12, 9⟩, "a.cs", false⟩] reconstructedPoints [0, 5, 10]

/-- The points of `partlyHidden` that are not hidden. -/
def shownPoints : Stream :=
  [⟨0, 5, ⟨10, 0⟩, ⟨10, 9⟩, "a.cs", false⟩, ⟨10, 15, ⟨12, 0⟩, ⟨12, 9⟩, "a.cs", false⟩]

/-- The reconstructed text of the hidden point of `partlyHidden`. -/
def hiddenSpan : LineSpan := ⟨⟨1, 0⟩, ⟨1, 9⟩⟩

/-- The diagnostic on the hidden point is reported in the only unit. -/
theorem target?_partlyHidden : partlyHidden.target? (finding hiddenSpan) = some (0, hiddenSpan) := by
  decide

/-- The text of the hidden point is covered by its reconstructed point alone. -/
theorem covering_hiddenSpan :
    reconstructedPoints.covering hiddenSpan.fromOne = [⟨5, 10, ⟨2, 0⟩, ⟨2, 9⟩, none, false⟩] := by
  have hfirst : reconstructedPoints.firstBySource hiddenSpan.fromOne.start = some 1 := by
    decide +kernel
  rw [Stream.covering, Stream.coveringBounds?, hfirst]
  rfl

/-- This point is what is carried over. -/
theorem carried?_partlyHidden : partlyHidden.carried? 0 hiddenSpan =
    some ([⟨5, 10, ⟨2, 0⟩, ⟨2, 9⟩, none, false⟩], shownPoints) := by
  have hselection : partlyHidden.selection? 0 hiddenSpan =
      some ⟨[⟨5, 10, ⟨2, 0⟩, ⟨2, 9⟩, none, false⟩], shownPoints, [0, 5, 10]⟩ :=
    selection?_ofFunction (by decide) (Stream.InSourceOrder.sanitized_eq (by decide) (by decide))
      covering_hiddenSpan (List.cons_ne_nil _ _) 0
  rw [carried?_eq, hselection]
  rfl

/-- The search strays to the point in front of the hidden one. -/
theorem neighbour?_shownPoints :
    (shownPoints.neighbour? 5).or (partlyHidden.inDump 0 hiddenSpan) =
      some ⟨"a.cs", ⟨⟨10, 0⟩, ⟨10, 9⟩⟩⟩ := by
  decide +kernel

/-- A diagnostic on the hidden point is given the place of the point in front of it. -/
theorem place_of_hidden_of_stray :
    shownPoints.InOffsetOrder ∧ shownPoints.HasRanges ∧ 5 < 10 ∧ shownPoints.Hides 5 10 ∧
      ((partlyHidden.fresh.after []).resolve (finding hiddenSpan)).1 =
        some ⟨"a.cs", ⟨⟨10, 0⟩, ⟨10, 9⟩⟩⟩ := by
  have horder : shownPoints.InOffsetOrder := by decide
  have hranges : shownPoints.HasRanges := by decide
  have hidden : shownPoints.Hides 5 10 := by decide
  obtain ⟨hplace, -, -⟩ := place_of_hidden [] target?_partlyHidden carried?_partlyHidden horder
    hranges rfl (by decide) hidden
  exact ⟨horder, hranges, by decide, hidden, hplace.trans neighbour?_shownPoints⟩

/-- So a diagnostic in a hidden region need not have its place in the written copy. -/
theorem not_forall_hidden_inDump :
    ¬ ∀ (s : Session Unit) (d : Diagnostic) (unit : Nat) (span : LineSpan) (run authored : Stream)
      (start stop : Nat), s.target? d = some (unit, span) →
      s.carried? unit span = some (run, authored) → authored.InOffsetOrder →
      authored.HasRanges → authored.HasDisjointRanges → run.offsets? = some (start, stop) →
      start < stop → authored.Hides start stop → (s.resolve d).1 = s.inDump unit span := by
  intro h
  have hplace := h partlyHidden (finding hiddenSpan) 0 hiddenSpan _ shownPoints 5 10
    target?_partlyHidden carried?_partlyHidden (by decide) (by decide) (by decide) rfl (by decide)
    (by decide)
  have hresolve := partlyHidden.resolve_after_fst [] (finding hiddenSpan)
  rw [direct_of_hidden target?_partlyHidden carried?_partlyHidden (by decide) (by decide) rfl
    (by decide) (by decide), neighbour?_shownPoints] at hresolve
  -- nothing was asked yet, so `partlyHidden` is the session of `hresolve`
  have hauthored : (partlyHidden.resolve (finding hiddenSpan)).1 =
      some ⟨"a.cs", ⟨⟨10, 0⟩, ⟨10, 9⟩⟩⟩ := hresolve
  have hdump : partlyHidden.inDump 0 hiddenSpan = none := rfl
  rw [hauthored, hdump] at hplace
  cases hplace

end Session

end Retrace
