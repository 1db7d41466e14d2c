import Retrace.Proofs.Session.Caching

/-!
# From a span to authored points

What any session that is reachable does with a span of a unit: it selects the reconstructed points
that the span touches (`selection?`), aligns them with the visible authored points, and takes the
counterpart of the run that this gives (`Selection.mapped`). `Reachable.resolve_eq` and `mapped_eq`
reduce the place of a diagnostic to the place of these points, so that a property of places is a
property of streams.
-/

namespace Retrace

/-- What a span of reconstructed source is traced through. -/
structure Selection where
  /-- The reconstructed points that the span touches. -/
  run : Stream
  /-- The visible authored points of the function. -/
  authored : Stream
  /-- The offsets at which the instructions of the function start. -/
  instructions : List Nat

namespace Selection

/-- The run as it is carried over. -/
def aligned (x : Selection) : Stream := (x.run.align x.authored x.instructions).2

/-- The authored points that the run is carried over to. -/
def mapped (x : Selection) : Stream := x.aligned.counterpart x.authored

end Selection

namespace Session

variable {ν : Type} {s : Session ν} {d : Diagnostic} {unit : Nat} {span : LineSpan} {x : Selection}
  {name : String} {found : ResolvedLocation}

/-! ## Sessions at work -/

/-- A session that nothing is kept in yet, or what becomes of a reachable one by a request, by entries
in its log, or by writing its units. -/
inductive Reachable : Session ν → Prop
  | opened {s : Session ν} (empty : s.cache = {}) : Reachable s
  | performed {s : Session ν} (request : Request) (h : Reachable s) : Reachable (s.perform request)
  | noted {s : Session ν} (entries : List LogEntry) (h : Reachable s) : Reachable (s.note entries)
  | dumped {s : Session ν} {σ : Type} (disk : Storage σ) (files : σ) (h : Reachable s) :
    Reachable (s.dumpUnits disk files).2.1

/-- Writing the units of a session leaves alone what it keeps and whom it asks. -/
theorem dumpUnits_collaborators {σ : Type} (disk : Storage σ) (s : Session ν) (files : σ) :
    (s.dumpUnits disk files).2.1.cache = s.cache ∧
      (s.dumpUnits disk files).2.1.frontend = s.frontend ∧
      (s.dumpUnits disk files).2.1.symbols = s.symbols := by
  unfold dumpUnits
  split
  · exact ⟨rfl, rfl, rfl⟩
  · split
    · exact ⟨rfl, rfl, rfl⟩
    · split
      · exact ⟨rfl, rfl, rfl⟩
      · exact ⟨rfl, rfl, rfl⟩

/-- Whether a session keeps what is true is a matter of its cache and its collaborators. -/
theorem Faithful.of_eq {t : Session ν} (h : s.Faithful) (hcache : t.cache = s.cache)
    (hfrontend : t.frontend = s.frontend) (hsymbols : t.symbols = s.symbols) : t.Faithful := by
  obtain ⟨hauthored, hreconstructed, hflagged⟩ := h
  constructor
  · rwa [hcache, hsymbols]
  · rwa [hcache, hfrontend]
  · rwa [hcache]

/-- A session that can be reached keeps only what its collaborators say. -/
theorem Reachable.faithful (h : s.Reachable) : s.Faithful := by
  induction h with
  | @opened s empty => exact s.faithful_fresh.of_eq empty rfl rfl
  | @performed s request _ ih => exact (continues_perform s request).faithful ih
  | @noted s entries _ ih => exact (continues_note s entries).faithful ih
  | @dumped s σ disk files _ ih =>
    obtain ⟨hcache, hfrontend, hsymbols⟩ := s.dumpUnits_collaborators disk files
    exact ih.of_eq hcache hfrontend hsymbols

/-- In a reachable session, the place of a diagnostic is the one it has without a memory. -/
theorem Reachable.resolve_eq (h : s.Reachable) (d : Diagnostic) : (s.resolve d).1 = s.direct d :=
  (s.resolve_spec d).2 h.faithful

/-- A finding is in the only unit. -/
theorem target?_ofFunction (authored reconstructed : Stream) (instructions : List Nat)
    (span : LineSpan) :
    (ofFunction authored reconstructed instructions).target? (finding span) = some (0, span) :=
  target?_of_source rfl (by cbv)

/-! ## Selections -/

/-- What a span of a unit is traced through, if its function has points of both kinds there. -/
def selection? (s : Session ν) (unit : Nat) (span : LineSpan) : Option Selection := do
  let provider ← s.symbols
  let function ← s.frontend.functionAt? unit span.fromOne
  let token ← function.token
  let authored := provider.stream token
  let run := (s.frontend.stream unit token).covering span.fromOne
  if authored.isEmpty || run.isEmpty then none
  else return ⟨run, authored, function.instructions⟩

/-- What is carried over is the aligned run of the selection. -/
theorem carried?_eq (s : Session ν) (unit : Nat) (span : LineSpan) :
    s.carried? unit span = (s.selection? unit span).map fun x => (x.aligned, x.authored) := by
  unfold carried? selection?
  cases s.symbols with
  | none => rfl
  | some provider =>
    cases hfunction : s.frontend.functionAt? unit span.fromOne with
    | none => rfl
    | some function =>
      cases htoken : function.token with
      | none => simp [htoken]
      | some token =>
        simp only [htoken, Option.bind_eq_bind, Option.bind_some]
        split
        · rfl
        · rfl

/-- Where a selection comes from. -/
theorem exists_of_selection? (h : s.selection? unit span = some x) :
    ∃ provider function token, s.symbols = some provider ∧
      s.frontend.functionAt? unit span.fromOne = some function ∧ function.token = some token ∧
      x = ⟨(s.frontend.stream unit token).covering span.fromOne, provider.stream token,
        function.instructions⟩ ∧ x.authored ≠ [] ∧ x.run ≠ [] := by
  simp only [selection?, Option.bind_eq_bind, Option.bind_eq_some_iff] at h
  obtain ⟨provider, hs, function, hfunction, token, htoken, h⟩ := h
  refine ⟨provider, function, token, hs, hfunction, htoken, ?_⟩
  split at h
  · cases h
  · next hne =>
    cases h
    simp only [Bool.or_eq_true, not_or, List.isEmpty_iff] at hne
    exact ⟨rfl, hne⟩

/-- In this session a span is traced through the points that cover it. -/
theorem selection?_ofFunction {authored reconstructed run : Stream} {instructions : List Nat}
    (hauthored : authored.visible ≠ []) (hsanitized : reconstructed.sanitized = reconstructed)
    (hcovering : reconstructed.covering span.fromOne = run) (hrun : run ≠ []) (unit : Nat) :
    (ofFunction authored reconstructed instructions).selection? unit span =
      some ⟨run, authored.visible, instructions⟩ := by
  have hsame : reconstructed.sanitized.covering span.fromOne = run := by rw [hsanitized, hcovering]
  have hempty : ¬ (authored.visible.isEmpty ||
      (reconstructed.sanitized.covering span.fromOne).isEmpty) := by
    simp [List.isEmpty_iff, hauthored, hsame, hrun]
  refine (if_neg hempty).trans ?_
  exact congrArg (fun part => some (Selection.mk part authored.visible instructions)) hsame

/-- The place of a span in the authored source is the place of the points it is carried over to. -/
theorem mapped_eq (s : Session ν) (unit : Nat) (span : LineSpan) :
    s.mapped unit span = (s.selection? unit span).bind fun x => x.mapped.place.toOption := by
  rw [Session.mapped, carried?_eq, Option.bind_map]
  rfl

/-- A span has a place if there is a selection with one. -/
theorem mapped_eq_some_iff : s.mapped unit span = some found ↔
    ∃ x, s.selection? unit span = some x ∧ x.mapped.place = .ok found := by
  rw [mapped_eq, Option.bind_eq_some_iff]
  refine exists_congr fun x => and_congr_right fun _ => ?_
  cases x.mapped.place with
  | error _ => simp [Except.toOption]
  | ok _ => simp [Except.toOption]

/-- A diagnostic that is traced through a selection has the place of the points it is carried over
to. -/
theorem Reachable.resolve_of_selection (h : s.Reachable) (htarget : s.target? d = some (unit, span))
    (hx : s.selection? unit span = some x) (hplace : x.mapped.place = .ok found) :
    (s.resolve d).1 = some found := by
  rw [h.resolve_eq, direct_of_target htarget, mapped_eq_some_iff.2 ⟨x, hx, hplace⟩]
  rfl

end Session

end Retrace
