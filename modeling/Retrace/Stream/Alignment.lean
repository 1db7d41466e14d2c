import Retrace.Log
import Retrace.SequencePoint.Basic
import Retrace.Text.Hex

/-!
# Alignment of a run with the authored points

A reconstruction may attach a leading one-byte instruction to the statement behind it, where the
compiler had counted it to the statement before. The run then starts one byte before any authored
point. `align` detects this and moves the start of the run forward by one.
-/

namespace Retrace.Stream

/-- How the start of a run fits the authored points and the instructions. -/
inductive Alignment
  /-- The run is empty or too short to be moved. -/
  | skipped
  /-- An authored point starts there. -/
  | pointAligned
  /-- An instruction starts there, but no authored point. -/
  | statementAligned
  /-- An instruction starts one byte later; the run is moved there. -/
  | nudged
  /-- None of these. -/
  | unaligned
deriving DecidableEq

/-- Runs of at most this many bytes are left alone. -/
def shortestMoved : Nat := 2

/-- How a run over the offsets from `start` to `stop` fits. Both lists are looked at up to their
first entry at or behind `start`. -/
def classify (start stop : Nat) (authored : Stream) (instructions : List Nat) : Alignment :=
  if stop - start ≤ shortestMoved then
    .skipped
  else if (authored.find? fun p => start ≤ p.offset).any fun p => p.offset == start then
    .pointAligned
  else
    match instructions.find? fun offset => start ≤ offset with
    | none => .unaligned
    | some offset =>
      if offset = start then .statementAligned
      else if offset = start + 1 then .nudged
      else .unaligned

/-- The IL offsets from the start of the first point to the end of the last one. -/
def offsets? (run : Stream) : Option (Nat × Nat) :=
  match run.head?, run.getLast? with
  | some first, some last => some (first.offset, last.endOffset)
  | _, _ => none

/-- How a run fits. -/
def alignment (run authored : Stream) (instructions : List Nat) : Alignment :=
  match run.offsets? with
  | none => .skipped
  | some (start, stop) => classify start stop authored instructions

/-- The run with its first point starting one byte later. -/
def moved : Stream → Stream
  | [] => []
  | first :: rest => { first with offset := first.offset + 1 } :: rest

/-- How a run fits, and the run as it is to be used. -/
def align (run authored : Stream) (instructions : List Nat) : Alignment × Stream :=
  match alignment run authored instructions with
  | .nudged => (.nudged, moved run)
  | a => (a, run)

/-- What the log says about the alignment of a run, given the run as it was. -/
def alignmentNotes (run : Stream) (a : Alignment) : List LogEntry :=
  match run.offsets? with
  | none => []
  | some (start, stop) =>
    match a with
    | .skipped => []
    | .pointAligned => []
    | .statementAligned =>
      [⟨.warn, s!"IL range at {Hex.marked start} starts on an instruction " ++
        "but on no original sequence point"⟩]
    | .nudged =>
      [⟨.trace, s!"Nudging IL range {Hex.marked start}..{Hex.marked stop} forward by 1"⟩]
    | .unaligned => [⟨.warn, s!"IL range at {Hex.marked start} neither aligned nor off by one"⟩]

end Retrace.Stream
