import Retrace.Stream.Alignment
import Retrace.Stream.Run
import Retrace.Token

/-!
# From reconstructed to authored source

A span of reconstructed source is carried over by way of IL offsets: the reconstructed points that
it touches, their range of offsets, and the authored points of that range. The place in the authored
source begins with the first of them and ends with the last.
-/

namespace Retrace

/-- Why a range of IL offsets has no place in the authored source. -/
inductive Unmapped
  /-- No authored point belongs to it. -/
  | unmatched
  /-- The last point ends before the first one starts. -/
  | unordered
  /-- The first point names no document. -/
  | undocumented
deriving DecidableEq

/-- What the log says about it. -/
def Unmapped.note (token : Token) : Unmapped → LogEntry
  | .unmatched =>
    ⟨.warn, s!"No covering sequence points found in the symbols of {token.render} " ++
      "despite having an IL range from decompilation"⟩
  | .unordered =>
    ⟨.warn, s!"Covering sequence point set of {token.render} is unordered, " ++
      "cannot create source mapping"⟩
  | .undocumented => ⟨.debug, s!"Mapped sequence points of {token.render} carry no document"⟩

namespace Stream

/-- The place in source text that a run of authored points stands for. -/
def place (run : Stream) : Except Unmapped ResolvedLocation :=
  match run.head?, run.getLast? with
  | some first, some last =>
    if last.stop < first.start then .error .unordered
    else
      match first.document with
      | none => .error .undocumented
      | some path => .ok ⟨path, first.start, last.stop⟩
  | _, _ => .error .unmatched

/-- The place in the authored source of a span of the reconstructed source, whose lines count from
one, and what the log says about the way there. -/
def relocate (token : Token) (authored reconstructed : Stream) (instructions : List Nat)
    (span : LineSpan) : Option ResolvedLocation × List LogEntry :=
  let run := reconstructed.covering span
  if run.isEmpty then (none, [])
  else
    let (alignment, aligned) := run.align authored instructions
    let notes := run.alignmentNotes alignment
    match (aligned.counterpart authored).place with
    | .ok found => (some found, notes)
    | .error why => (none, notes ++ [why.note token])

end Stream

end Retrace
