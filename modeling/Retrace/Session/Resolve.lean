import Retrace.Diagnostic
import Retrace.Session.Cache
import Retrace.Session.Dump
import Retrace.Session.Relocation
import Retrace.Text.Lines

/-!
# Places of diagnostics

Where a diagnostic belongs in the authored source. If the symbols do not tell, it is the written
copy of the reconstructed source, and without that it has no place. A diagnostic is described
together with its place.
-/

namespace Retrace.Session

variable {ν : Type}

/-- The place in the authored source of a span of a unit, whose lines count from one, as these symbols
tell it. -/
def throughProvider (s : Session ν) (provider : SymbolProvider) (unit : Nat) (here : LineSpan) :
    Option ResolvedLocation × Session ν :=
  let s := { s with inquiries := { s.inquiries with nodes := s.inquiries.nodes + 1 } }
  match s.frontend.functionAt? unit here with
  | none => (none, s)
  | some function =>
    match function.token with
    | none => (none, s)
    | some token =>
      let s := s.ensureAuthored provider token
      if (s.authored token).isEmpty then (none, s)
      else
        let s := s.ensureReconstructed unit token
        let (found, notes) := Stream.relocate token (s.authored token)
          (s.reconstructed unit token) function.instructions here
        (found, s.note notes)

/-- The place in the authored source of a span of a unit, as the symbols tell it. -/
def throughSymbols (s : Session ν) (unit : Nat) (span : LineSpan) :
    Option ResolvedLocation × Session ν :=
  match s.symbols with
  | none => (none, s)
  | some provider => s.throughProvider provider unit span.fromOne

/-- The place in the written copy of a unit. -/
def inDump (s : Session ν) (unit : Nat) (span : LineSpan) : Option ResolvedLocation :=
  (s.dumpPath? unit).map fun path => ⟨path.text, span⟩

/-- The place of a diagnostic. -/
def resolve (s : Session ν) (d : Diagnostic) : Option ResolvedLocation × Session ν :=
  match d.location with
  | .none => (none, s)
  | .source name span =>
    match s.unitIndex? name with
    | none => (none, s)
    | some unit =>
      match s.throughSymbols unit span with
      | (some found, s) => (some found, s)
      | (none, s) => (s.inDump unit span, s)

/-! ## Checked additions

The lines of a diagnostic count from zero and those of the reconstructed source from one, so one is
added to them. `resolve` is the library without checks, where the addition wraps. With checks it is
stopped if the sum does not fit. -/

/-- What `throughSymbols` gives if additions are checked; nothing if one of them stops it. -/
def throughSymbolsChecked (s : Session ν) (unit : Nat) (span : LineSpan) :
    Option (Option ResolvedLocation × Session ν) :=
  match s.symbols with
  | none => some (none, s)
  | some provider => span.fromOne?.map fun here => s.throughProvider provider unit here

/-- The place of a diagnostic if additions are checked; nothing if one of them stops the search. -/
def resolveChecked (s : Session ν) (d : Diagnostic) :
    Option (Option ResolvedLocation × Session ν) :=
  match d.location with
  | .none => some (none, s)
  | .source name span =>
    match s.unitIndex? name with
    | none => some (none, s)
    | some unit =>
      (s.throughSymbolsChecked unit span).map fun
        | (some found, s) => (some found, s)
        | (none, s) => (s.inDump unit span, s)

/-! ## Descriptions -/

/-- The lines of a text that a span covers, each with its number counted from zero. -/
def excerpt (text : String) (span : LineSpan) : List (Nat × String) :=
  (((Text.lines text).zipIdx.drop span.start.line).take (span.stop.line - span.start.line + 1)).map
    fun (line, number) => (number, line)

/-- The reconstructed lines that a diagnostic is about. -/
def excerptOf (s : Session ν) (name : String) (span : LineSpan) : List (Nat × String) :=
  match (s.unitIndex? name).bind fun unit => s.units[unit]? with
  | none => []
  | some u => excerpt u.text span

/-- What is said of a diagnostic before its source text. -/
def heading (d : Diagnostic) : String :=
  s!"[{d.id}:{d.severity.name}] {d.message}\n" ++
    if d.isSuppressed then "^ diagnostic was suppressed\n" else ""

/-- A diagnostic in words: what it says, the reconstructed lines it is about, and its place. -/
def describe (s : Session ν) (d : Diagnostic) : String × Session ν :=
  match d.location with
  | .none => (heading d, s)
  | .source name span =>
    let lines := (s.excerptOf name span).map fun (number, line) => s!"  {number} | {line}\n"
    let text := heading d ++ String.join lines
    match s.resolve d with
    | (some place, s) => (text ++ s!"  ^ Has source mapping: {place.render}\n", s)
    | (none, s) => (text, s)

end Retrace.Session
