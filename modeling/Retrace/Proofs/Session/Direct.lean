import Retrace.Session.Resolve

/-!
# Places without a memory

The place of a diagnostic as it follows from the collaborators of a session alone: `direct` asks the
symbols and the frontend anew for every diagnostic, keeps nothing and reads nothing that was kept.
On the way, `carried?` names what is handed over from the reconstructed to the authored stream: the
aligned run of reconstructed points, and the visible authored points.

What `resolve` does is told by the target of a diagnostic, in two equations: `resolve_of_no_target` and
`resolve_of_target`. What is proved of the places in a unit goes through them.
-/

namespace Retrace

/-- The visible authored points of a function. A failure counts as having none. -/
def SymbolProvider.stream (provider : SymbolProvider) (token : Token) : Stream :=
  match provider token with
  | .ok (some points) => points.visible
  | .ok none => []
  | .error _ => []

/-- The reconstructed points of a function in the order of their source text. A failure counts as
having none. -/
def Frontend.stream {ν : Type} (f : Frontend ν) (unit : Nat) (token : Token) : Stream :=
  match f.streams unit with
  | .ok streams => ((streams.get? token).map Stream.sanitized).getD []
  | .error _ => []

namespace Session

variable {ν : Type}

/-- The unit and the span of a diagnostic that is reported in a unit of the session. -/
def target? (s : Session ν) (d : Diagnostic) : Option (Nat × LineSpan) :=
  match d.location with
  | .none => none
  | .source name span => (s.unitIndex? name).map fun unit => (unit, span)

/-- The run of reconstructed points for a span of a unit, aligned with the authored points, and these
authored points; nothing if there are no points of either kind. -/
def carried? (s : Session ν) (unit : Nat) (span : LineSpan) : Option (Stream × Stream) := do
  let provider ← s.symbols
  let function ← s.frontend.functionAt? unit span.fromOne
  let token ← function.token
  let authored := provider.stream token
  let run := (s.frontend.stream unit token).covering span.fromOne
  if authored.isEmpty || run.isEmpty then none
  else return ((run.align authored function.instructions).2, authored)

/-- The place in the authored source of a span of a unit. -/
def mapped (s : Session ν) (unit : Nat) (span : LineSpan) : Option ResolvedLocation :=
  (s.carried? unit span).bind fun (run, authored) => (run.counterpart authored).place.toOption

/-- The place of a diagnostic. -/
def direct (s : Session ν) (d : Diagnostic) : Option ResolvedLocation :=
  (s.target? d).bind fun (unit, span) => (s.mapped unit span).or (s.inDump unit span)

section Targets

variable {s : Session ν} {d : Diagnostic} {unit : Nat} {span : LineSpan} {name : String}

/-- A diagnostic in a unit of the session is about that unit. -/
theorem target?_of_source (hlocation : d.location = .source name span)
    (hunit : s.unitIndex? name = some unit) : s.target? d = some (unit, span) := by
  rw [target?, hlocation]
  simp only [hunit, Option.map_some]

/-- A diagnostic in a unit has its place in the authored source or else in the written copy. -/
theorem direct_of_target (htarget : s.target? d = some (unit, span)) :
    s.direct d = (s.mapped unit span).or (s.inDump unit span) := by
  rw [Session.direct, htarget]
  rfl

/-- A diagnostic outside of all units has no place, and nobody is asked for one. -/
theorem resolve_of_no_target (htarget : s.target? d = none) : s.resolve d = (none, s) := by
  unfold target? at htarget
  unfold resolve
  split
  · rfl
  · next name span hlocation =>
    rw [hlocation] at htarget
    rw [Option.map_eq_none_iff.1 htarget]

/-- A diagnostic in a unit has the place that the symbols tell, or else the one in the written copy. -/
theorem resolve_of_target (htarget : s.target? d = some (unit, span)) :
    s.resolve d = ((s.throughSymbols unit span).1.or ((s.throughSymbols unit span).2.inDump unit span),
      (s.throughSymbols unit span).2) := by
  unfold target? at htarget
  unfold resolve
  split
  · next hlocation =>
    rw [hlocation] at htarget
    cases htarget
  · next name span' hlocation =>
    rw [hlocation] at htarget
    obtain ⟨unit', hunit, heq⟩ := Option.map_eq_some_iff.1 htarget
    cases heq
    rw [hunit]
    dsimp only
    rcases s.throughSymbols unit span with ⟨_ | found, t⟩
    · rfl
    · rfl

end Targets

/-- A session on a unit with one function, given the points of the function and the offsets of its
instructions. It has no dump directory. -/
def ofFunction (authored reconstructed : Stream) (instructions : List Nat) : Session Unit where
  fileName := ⟨"sample.dll"⟩
  frontend :=
    { units := [⟨"Sample.cs", ""⟩]
      nodeAt := fun _ _ => some ()
      parent := fun _ => none
      functionOf := fun _ => some ⟨some ⟨0x06000001⟩, instructions⟩
      streams := fun _ => .ok ⟨[(⟨0x06000001⟩, reconstructed)]⟩ }
  symbols := some fun _ => .ok (some authored)
  dumpSource := none

/-- A diagnostic in the unit of `ofFunction`. -/
def finding (span : LineSpan) : Diagnostic where
  id := "X1"
  severity := .warning
  message := ""
  location := .source "Sample.cs" span
  isSuppressed := false
  warningLevel := 1
  properties := []
  descriptor := none

end Session

end Retrace
