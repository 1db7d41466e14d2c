import Retrace.Proofs.Session.Selection
import Retrace.Proofs.Stream.Aligned
import Retrace.Proofs.Stream.Source

/-!
# Statements out of order

The points that a span touches are a run in the order of the source text. They are carried over by
their IL offsets, and the range of offsets is taken to reach from the start of the first of them to the
end of the last one. That is the range they cover if the text has the order of the IL. Where it has not,
as with the condition of a loop, a statement in the middle of the run may lie outside of that range:

* `place_of_selected` : what a diagnostic is given the place of are the authored points that start in
  the range between the two ends of the run, behind at most one other point. So no selected statement
  is lost if none of them reaches beyond the two ends (`StaysIn`);
* `not_forall_selected_mapped` : a loop whose condition is the last of its statements in the IL and
  comes before its body in the text. The condition is lost for a diagnostic on the whole loop.
-/

namespace Retrace

/-- An offset is in the range of a point. -/
def SequencePoint.Covers (p : SequencePoint) (offset : Nat) : Prop :=
  p.offset ≤ offset ∧ offset < p.endOffset

instance (p : SequencePoint) (offset : Nat) : Decidable (p.Covers offset) :=
  inferInstanceAs (Decidable (p.offset ≤ offset ∧ offset < p.endOffset))

namespace Stream

variable {part authored : Stream} {start stop : Nat}

/-- No range reaches beyond the offsets from `start` to `stop`. -/
def StaysIn (points : Stream) (start stop : Nat) : Prop :=
  ∀ p ∈ points, start ≤ p.offset ∧ p.endOffset ≤ stop

instance (points : Stream) (start stop : Nat) : Decidable (points.StaysIn start stop) :=
  inferInstanceAs (Decidable (∀ p ∈ points, start ≤ p.offset ∧ p.endOffset ≤ stop))

/-- What a point of a run covers starts between the ends of the run, if the run stays in them. -/
theorem StaysIn.mem_within (h : part.StaysIn start stop) {p q : SequencePoint} (hp : p ∈ authored)
    (hq : q ∈ part) (hcovers : q.Covers p.offset) : p ∈ authored.within start stop := by
  obtain ⟨hstart, hstop⟩ := h q hq
  obtain ⟨hle, hlt⟩ := hcovers
  refine List.mem_filter.2 ⟨hp, ?_⟩
  simp only [decide_eq_true_eq]
  omega

/-- A run in the order of its offsets stays in its ends. -/
theorem InOffsetOrder.staysIn (h : part.InOffsetOrder)
    (hends : part.Pairwise fun p q => p.endOffset ≤ q.endOffset)
    (hpart : part.offsets? = some (start, stop)) : part.StaysIn start stop := by
  intro q hq
  cases hfirst : part.head? with
  | none => simp [offsets?, hfirst] at hpart
  | some first =>
    cases hlast : part.getLast? with
    | none => simp [offsets?, hlast] at hpart
    | some last =>
      simp only [offsets?, hfirst, hlast, Option.some.injEq, Prod.mk.injEq] at hpart
      obtain ⟨rfl, rfl⟩ := hpart
      constructor
      · obtain ⟨rest, rfl⟩ := List.head?_eq_some_iff.1 hfirst
        rcases List.mem_cons.1 hq with rfl | hq
        · exact Nat.le_refl _
        · exact (List.pairwise_cons.1 h).1 q hq
      · obtain ⟨front, rfl⟩ := List.getLast?_eq_some_iff.1 hlast
        rcases List.mem_append.1 hq with hq | hq
        · exact (List.pairwise_append.1 hends).2.2 q hq last List.mem_cons_self
        · obtain rfl := List.mem_singleton.1 hq
          exact Nat.le_refl _

end Stream

/-- What a selection is carried over to are the authored points that start between the two ends of its
run, behind at most one other point. -/
theorem Selection.exists_leading {x : Selection} {start stop : Nat} (h : x.authored.InOffsetOrder)
    (hrun : x.run.offsets? = some (start, stop)) :
    ∃ leading : Stream, x.mapped = leading ++ x.authored.within start stop ∧ leading.length ≤ 1 := by
  obtain ⟨start', haligned, hwithin⟩ := h.exists_offsets_align hrun x.instructions
  rw [← hwithin]
  exact h.exists_leading haligned

namespace Session

variable {ν : Type} {s : Session ν} {d : Diagnostic} {unit start stop : Nat} {span : LineSpan}
  {x : Selection} {found : ResolvedLocation}

/-- A diagnostic has the place of the authored points that start between the start of the first and
the end of the last selected point, behind at most one other point. A selected statement in between may
be missing there; none is if no selected point reaches beyond these two ends, whatever their order is
otherwise. -/
theorem place_of_selected (h : s.Reachable) (htarget : s.target? d = some (unit, span))
    (hx : s.selection? unit span = some x) (hplace : x.mapped.place = .ok found)
    (horder : x.authored.InOffsetOrder) (hrun : x.run.offsets? = some (start, stop)) :
    (s.resolve d).1 = some found ∧
      (∃ leading : Stream, x.mapped = leading ++ x.authored.within start stop ∧
        leading.length ≤ 1) ∧
      (x.run.StaysIn start stop →
        ∀ p ∈ x.authored, (∃ q ∈ x.run, q.Covers p.offset) → p ∈ x.mapped) := by
  obtain ⟨leading, hmapped, hlen⟩ := x.exists_leading horder hrun
  refine ⟨h.resolve_of_selection htarget hx hplace, ⟨leading, hmapped, hlen⟩, ?_⟩
  rintro hstays p hp ⟨q, hq, hcovers⟩
  rw [hmapped]
  exact List.mem_append_right _ (hstays.mem_within hp hq hcovers)

/-! ## A loop with its condition at the end -/

/-- The authored points of `loop`: what comes before the loop, its body, and its condition. -/
def loopPoints : Stream :=
  [⟨0, 5, ⟨10, 0⟩, ⟨10, 9⟩, "a.cs", false⟩, ⟨5, 10, ⟨11, 0⟩, ⟨11, 9⟩, "a.cs", false⟩,
    ⟨10, 15, ⟨12, 0⟩, ⟨12, 9⟩, "a.cs", false⟩]

/-- The reconstructed points of `loop`, with the condition in front of the body. -/
def reorderedPoints : Stream :=
  [⟨0, 5, ⟨1, 0⟩, ⟨1, 9⟩, none, false⟩, ⟨10, 15, ⟨2, 0⟩, ⟨2, 9⟩, none, false⟩,
    ⟨5, 10, ⟨3, 0⟩, ⟨3, 9⟩, none, false⟩]

/-- A session on a function with a loop. -/
def loop : Session Unit := ofFunction loopPoints reorderedPoints [0, 5, 10]

/-- The reconstructed text of `loop` from its start to the end of a line. -/
def throughLine (line : Nat) : LineSpan := ⟨⟨0, 0⟩, ⟨line, 9⟩⟩

/-- The text through a line is covered by the points up to it, in their reconstructed order. -/
theorem covering_throughLine {line : Nat} (hle : line ≤ 2) :
    reorderedPoints.covering (throughLine line).fromOne = reorderedPoints.take (line + 1) := by
  have hfirst : reorderedPoints.firstBySource (throughLine line).fromOne.start = some 0 := by
    show reorderedPoints.firstBySource ⟨1, 0⟩ = some 0
    decide +kernel
  rw [Stream.covering, Stream.coveringBounds?, hfirst]
  match line, hle with
  | 0, _ => rfl
  | 1, _ => rfl
  | 2, _ => rfl

/-- What the text through a line of `loop` is traced through. -/
def loopSelection (line : Nat) : Selection := ⟨reorderedPoints.take (line + 1), loopPoints, [0, 5, 10]⟩

/-- The text through a line is traced through these points. -/
theorem selection?_loop {line : Nat} (hle : line ≤ 2) :
    loop.selection? 0 (throughLine line) = some (loopSelection line) :=
  selection?_ofFunction (by decide) (Stream.InSourceOrder.sanitized_eq (by decide) (by decide))
    (covering_throughLine hle) (List.cons_ne_nil _ _) 0

theorem inOffsetOrder_loopPoints : loopPoints.InOffsetOrder := by decide

/-- The text through the condition reaches to the end of the IL, and all of the loop is taken. -/
theorem mapped_throughCondition : (loopSelection 1).mapped = loopPoints := by
  have hrange : (loopSelection 1).aligned.offsets? = some (0, 15) := rfl
  exact Stream.counterpart_eq_within_of_two inOffsetOrder_loopPoints (by decide) hrange (by decide)
    ⟨_, List.mem_cons_self, rfl⟩

/-- The text through the body contains the condition, but the condition is not taken. -/
theorem mapped_throughBody : (loopSelection 2).mapped = loopPoints.take 2 := by
  have hrange : (loopSelection 2).aligned.offsets? = some (0, 10) := rfl
  exact Stream.counterpart_eq_within_of_two inOffsetOrder_loopPoints (by decide) hrange (by decide)
    ⟨_, List.mem_cons_self, rfl⟩

/-- The text through the condition is out of order only in that it leaves out the body. -/
theorem place_of_selected_of_loop :
    let d := finding (throughLine 1)
    let found : ResolvedLocation := ⟨"a.cs", ⟨⟨10, 0⟩, ⟨12, 9⟩⟩⟩
    loop.Reachable ∧ loop.target? d = some (0, throughLine 1) ∧
      loop.selection? 0 (throughLine 1) = some (loopSelection 1) ∧
      (loopSelection 1).mapped.place = .ok found ∧ loopPoints.InOffsetOrder ∧
      (loopSelection 1).run.offsets? = some (0, 15) ∧ (loopSelection 1).run.StaysIn 0 15 ∧
      (loop.resolve d).1 = some found ∧
      ∀ p ∈ loopPoints, (∃ q ∈ (loopSelection 1).run, q.Covers p.offset) →
        p ∈ (loopSelection 1).mapped := by
  intro d found
  have hreachable : loop.Reachable := .opened rfl
  have htarget : loop.target? d = some (0, throughLine 1) := target?_ofFunction _ _ _ _
  have hselection := selection?_loop (Nat.le_succ 1)
  have hplace : (loopSelection 1).mapped.place = .ok found := by
    rw [mapped_throughCondition]
    rfl
  have hrun : (loopSelection 1).run.offsets? = some (0, 15) := rfl
  have hstays : (loopSelection 1).run.StaysIn 0 15 :=
    Stream.InOffsetOrder.staysIn (by decide) (by decide) hrun
  obtain ⟨hfound, -, hselected⟩ :=
    place_of_selected hreachable htarget hselection hplace inOffsetOrder_loopPoints hrun
  exact ⟨hreachable, htarget, hselection, hplace, inOffsetOrder_loopPoints, hrun, hstays, hfound,
    hselected hstays⟩

/-- So a selected statement need not be among the points that a diagnostic has the place of. -/
theorem not_forall_selected_mapped :
    ¬ ∀ (s : Session Unit) (d : Diagnostic) (unit : Nat) (span : LineSpan) (x : Selection)
      (found : ResolvedLocation), s.Reachable → s.target? d = some (unit, span) →
      s.selection? unit span = some x → x.mapped.place = .ok found →
      (s.resolve d).1 = some found → x.authored.InOffsetOrder →
      ∀ p ∈ x.authored, (∃ q ∈ x.run, q.Covers p.offset) → p ∈ x.mapped := by
  intro h
  have hreachable : loop.Reachable := .opened rfl
  have htarget : loop.target? (finding (throughLine 2)) = some (0, throughLine 2) :=
    target?_ofFunction _ _ _ _
  have hselection := selection?_loop (Nat.le_refl 2)
  have hplace : (loopSelection 2).mapped.place = .ok ⟨"a.cs", ⟨⟨10, 0⟩, ⟨11, 9⟩⟩⟩ := by
    rw [mapped_throughBody]
    rfl
  have hfound := hreachable.resolve_of_selection htarget hselection hplace
  have hcondition := h _ _ _ _ _ _ hreachable htarget hselection hplace hfound
    inOffsetOrder_loopPoints ⟨10, 15, ⟨12, 0⟩, ⟨12, 9⟩, "a.cs", false⟩ (by decide) (by decide)
  rw [mapped_throughBody] at hcondition
  revert hcondition
  decide

end Session

end Retrace
