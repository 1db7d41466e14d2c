import Retrace.Proofs.Session.Outcome
import Retrace.Proofs.Stream.Counterpart
import Retrace.Proofs.Stream.Relabelling
import Retrace.Proofs.Stream.Source

/-!
# The document of a place

The points of one method may be in several documents. A place takes its document from the first
authored point that is carried over and its end from the last one, and nothing on the way compares the
documents of the two. `place_of_documents` says what this comes to: the end is in the document of the
place if all points of the method are in one document, but apart from the first point carried over no
document has any influence on the place. `not_forall_end_in_document` is a method that goes on in a
second document; a diagnostic on both of its statements is given a place that begins in the first
document and ends at a line of the second.
-/

namespace Retrace

/-- The point without its document. -/
def SequencePoint.undocumented (p : SequencePoint) : SequencePoint := { p with document := none }

namespace Stream

variable {points points' : Stream} {found : ResolvedLocation}

/-- The points of two streams differ at most in their documents. -/
def SameButDocuments (points points' : Stream) : Prop :=
  points.map SequencePoint.undocumented = points'.map SequencePoint.undocumented

/-- How a run is aligned does not depend on the documents of the authored points. -/
theorem SameButDocuments.alignment_eq (h : points.SameButDocuments points') (run : Stream)
    (instructions : List Nat) :
    run.alignment points instructions = run.alignment points' instructions := by
  have hf : ∀ p : SequencePoint, p.undocumented.offset = p.offset := fun _ => rfl
  rw [← alignment_map hf run points, h, alignment_map hf]

/-- Nor does the run that comes out. -/
theorem SameButDocuments.align_eq (h : points.SameButDocuments points') (run : Stream)
    (instructions : List Nat) : run.align points instructions = run.align points' instructions := by
  rw [align, align, h.alignment_eq]

/-- The counterpart of a run has the same points, whatever their documents are. -/
theorem SameButDocuments.counterpart (h : points.SameButDocuments points') (needle : Stream) :
    (needle.counterpart points).SameButDocuments (needle.counterpart points') := by
  have hf : ∀ p : SequencePoint, p.undocumented.offset = p.offset := fun _ => rfl
  rw [SameButDocuments, ← counterpart_map hf, ← counterpart_map hf, h]

/-- Points that differ in their documents at most have the same ends, and so the same place if the
first ones are in the same document. -/
theorem SameButDocuments.place_eq (h : points.SameButDocuments points')
    (hplace : points.place = .ok found)
    (hdocument : points'.head?.bind (·.document) = some found.path) : points'.place = .ok found := by
  obtain ⟨first, last, hfirst, hlast, hle, -, hspan⟩ := place_eq_ok_iff.1 hplace
  obtain ⟨first', hfirst', hpath⟩ := Option.bind_eq_some_iff.1 hdocument
  have hstart : first.undocumented = first'.undocumented := by
    have heads := congrArg List.head? h
    rw [List.head?_map, List.head?_map, hfirst, hfirst'] at heads
    exact Option.some.inj heads
  obtain ⟨last', hlast', hstop⟩ :
      ∃ last', points'.getLast? = some last' ∧ last.undocumented = last'.undocumented := by
    have lasts := congrArg List.getLast? h
    rw [List.getLast?_map, List.getLast?_map, hlast] at lasts
    obtain ⟨last', hlast', heq⟩ := Option.map_eq_some_iff.1 lasts.symm
    exact ⟨last', hlast', heq.symm⟩
  have hstart' : first.start = first'.start := (congrArg SequencePoint.start hstart :)
  have hstop' : last.stop = last'.stop := (congrArg SequencePoint.stop hstop :)
  rw [hstart', hstop'] at hle hspan
  exact place_eq_ok_iff.2 ⟨first', last', hfirst', hlast', hle, hpath, hspan⟩

end Stream

namespace Selection

/-- Two selections differ at most in the documents of the authored points. -/
structure SameButDocuments (x y : Selection) : Prop where
  run : y.run = x.run
  instructions : y.instructions = x.instructions
  authored : x.authored.SameButDocuments y.authored

/-- So has what a selection is carried over to. -/
theorem SameButDocuments.mapped {x y : Selection} (h : x.SameButDocuments y) :
    x.mapped.SameButDocuments y.mapped := by
  have haligned : y.aligned = x.aligned := by
    rw [aligned, aligned, h.run, h.instructions, h.authored.align_eq]
  rw [Selection.mapped, Selection.mapped, haligned]
  exact h.authored.counterpart _

end Selection

namespace Session

variable {ν : Type} {s : Session ν} {d : Diagnostic} {unit : Nat} {span : LineSpan} {x : Selection}
  {found : ResolvedLocation}

/-- The document of a place is the one of the first authored point that is carried over, and its end
is the end of the last one. If all authored points of the method are in one document, both are in the
document of the place. In general nothing follows for the last point, for the place stays the same
with any other documents of the authored points that leave the first one its own. -/
theorem place_of_documents (h : s.Reachable) (htarget : s.target? d = some (unit, span))
    (hx : s.selection? unit span = some x) (hplace : x.mapped.place = .ok found) :
    (s.resolve d).1 = some found ∧
      (∃ first last, x.mapped.head? = some first ∧ x.mapped.getLast? = some last ∧
        first.document = some found.path ∧ found.span = ⟨first.start, last.stop⟩ ∧
        ((∀ p ∈ x.authored, ∀ q ∈ x.authored, p.document = q.document) →
          last.document = some found.path)) ∧
      ∀ {t : Session ν} {y : Selection}, t.Reachable → t.target? d = some (unit, span) →
        t.selection? unit span = some y → x.SameButDocuments y →
        y.mapped.head?.bind (·.document) = some found.path → (t.resolve d).1 = some found := by
  obtain ⟨first, last, hfirst, hlast, -, hdocument, hspan⟩ := Stream.place_eq_ok_iff.1 hplace
  refine ⟨h.resolve_of_selection htarget hx hplace,
    ⟨first, last, hfirst, hlast, hdocument, hspan, fun hone => ?_⟩, ?_⟩
  · have hinfix := Stream.counterpart_infix_haystack x.aligned x.authored
    have hfirst' : first ∈ x.authored := hinfix.subset (List.mem_of_mem_head? hfirst)
    have hlast' : last ∈ x.authored := hinfix.subset (List.mem_of_getLast? hlast)
    rw [← hdocument]
    exact hone last hlast' first hfirst'
  · intro t y ht htarget' hy hsame hhead
    exact ht.resolve_of_selection htarget' hy (hsame.mapped.place_eq hplace hhead)

/-! ## A method in two documents -/

/-- The reconstructed points of `continuedIn`. -/
def twoStatements : Stream :=
  [⟨0, 5, ⟨1, 0⟩, ⟨1, 9⟩, none, false⟩, ⟨5, 10, ⟨2, 0⟩, ⟨2, 9⟩, none, false⟩]

/-- The authored points of `continuedIn`. -/
def continuedPoints (document : String) : Stream :=
  [⟨0, 5, ⟨10, 0⟩, ⟨10, 9⟩, "a.cs", false⟩, ⟨5, 10, ⟨20, 0⟩, ⟨20, 9⟩, document, false⟩]

/-- A session on a method of two statements, the first in `a.cs` and the second in a given document. -/
def continuedIn (document : String) : Session Unit :=
  ofFunction (continuedPoints document) twoStatements [0, 5]

/-- The reconstructed text of both statements. -/
def bothStatements : LineSpan := ⟨⟨0, 0⟩, ⟨1, 9⟩⟩

/-- What both statements of `continuedIn` are traced through. -/
def continuedSelection (document : String) : Selection :=
  ⟨twoStatements, continuedPoints document, [0, 5]⟩

/-- The text of both statements is covered by both points. -/
theorem covering_bothStatements : twoStatements.covering bothStatements.fromOne = twoStatements := by
  have hfirst : twoStatements.firstBySource bothStatements.fromOne.start = some 0 := by
    decide +kernel
  rw [Stream.covering, Stream.coveringBounds?, hfirst]
  rfl

/-- The text of both statements is traced through all points of the method. -/
theorem selection?_continuedIn (document : String) :
    (continuedIn document).selection? 0 bothStatements = some (continuedSelection document) := by
  have hvisible : (continuedPoints document).visible = continuedPoints document := rfl
  exact selection?_ofFunction (hvisible ▸ List.cons_ne_nil _ _)
    (Stream.InSourceOrder.sanitized_eq (by decide) (by decide)) covering_bothStatements
    (List.cons_ne_nil _ _) 0

/-- Both statements are carried over to both authored points. -/
theorem mapped_continuedSelection (document : String) :
    (continuedSelection document).mapped = continuedPoints document := by
  have horder : (continuedPoints document).InOffsetOrder := by
    simp [Stream.InOffsetOrder, continuedPoints]
  have hrange : (continuedSelection document).aligned.offsets? = some (0, 10) := rfl
  exact Stream.counterpart_eq_within_of_two horder (Nat.le_refl 2) hrange (by decide)
    ⟨_, List.mem_cons_self, rfl⟩

/-- Both statements have the same place, whichever document the second one is in. -/
theorem place_of_documents_of_second :
    let d := finding bothStatements
    let found : ResolvedLocation := ⟨"a.cs", ⟨⟨10, 0⟩, ⟨20, 9⟩⟩⟩
    (continuedIn "a.cs").Reachable ∧
      (continuedIn "a.cs").target? d = some (0, bothStatements) ∧
      (continuedIn "a.cs").selection? 0 bothStatements = some (continuedSelection "a.cs") ∧
      (continuedSelection "a.cs").mapped.place = .ok found ∧
      (∀ p ∈ (continuedSelection "a.cs").authored, ∀ q ∈ (continuedSelection "a.cs").authored,
        p.document = q.document) ∧
      ((continuedIn "a.cs").resolve d).1 = some found ∧
      (∃ last, (continuedSelection "a.cs").mapped.getLast? = some last ∧
        last.document = some found.path) ∧
      (continuedSelection "a.cs").SameButDocuments (continuedSelection "b.cs") ∧
      ((continuedIn "b.cs").resolve d).1 = some found := by
  intro d found
  have hreachable : ∀ document, (continuedIn document).Reachable := fun _ => .opened rfl
  have htarget : ∀ document, (continuedIn document).target? d = some (0, bothStatements) :=
    fun _ => target?_ofFunction _ _ _ _
  have hplace : (continuedSelection "a.cs").mapped.place = .ok found := by
    rw [mapped_continuedSelection]
    rfl
  have hone : ∀ p ∈ (continuedSelection "a.cs").authored,
      ∀ q ∈ (continuedSelection "a.cs").authored, p.document = q.document := by decide
  have hsame : (continuedSelection "a.cs").SameButDocuments (continuedSelection "b.cs") :=
    ⟨rfl, rfl, rfl⟩
  obtain ⟨hfound, ⟨first, last, -, hlast, -, -, hdocument⟩, hothers⟩ :=
    place_of_documents (hreachable "a.cs") (htarget "a.cs") (selection?_continuedIn "a.cs") hplace
  refine ⟨hreachable "a.cs", htarget "a.cs", selection?_continuedIn "a.cs", hplace, hone, hfound,
    ⟨last, hlast, hdocument hone⟩, hsame,
    hothers (hreachable "b.cs") (htarget "b.cs") (selection?_continuedIn "b.cs") hsame ?_⟩
  rw [mapped_continuedSelection]
  rfl

/-- So the end of a place need not be in the document of the place. -/
theorem not_forall_end_in_document :
    ¬ ∀ (s : Session Unit) (d : Diagnostic) (unit : Nat) (span : LineSpan) (x : Selection)
      (last : SequencePoint) (found : ResolvedLocation), s.Reachable →
      s.target? d = some (unit, span) → s.selection? unit span = some x →
      x.mapped.place = .ok found → (s.resolve d).1 = some found → x.mapped.getLast? = some last →
      last.document = some found.path := by
  intro h
  have hreachable : (continuedIn "b.cs").Reachable := .opened rfl
  have htarget : (continuedIn "b.cs").target? (finding bothStatements) = some (0, bothStatements) :=
    target?_ofFunction _ _ _ _
  have hselection := selection?_continuedIn "b.cs"
  have hplace : (continuedSelection "b.cs").mapped.place =
      .ok ⟨"a.cs", ⟨⟨10, 0⟩, ⟨20, 9⟩⟩⟩ := by
    rw [mapped_continuedSelection]
    rfl
  have hlast : (continuedSelection "b.cs").mapped.getLast? =
      some ⟨5, 10, ⟨20, 0⟩, ⟨20, 9⟩, "b.cs", false⟩ := by
    rw [mapped_continuedSelection]
    rfl
  have hfound := hreachable.resolve_of_selection htarget hselection hplace
  have hpath := h _ _ _ _ _ _ _ hreachable htarget hselection hplace hfound hlast
  revert hpath
  decide

end Session

end Retrace
