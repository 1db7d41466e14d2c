import Retrace.Bytes.Cursor
import Retrace.Bytes.Word
import Retrace.Cil.Operand

/-!
# Instruction boundaries

Where each instruction of a method body begins and how many bytes it takes. Operands are stepped
over and not interpreted. `boundaries` reads a body to its end and fails as a whole when any
instruction is reserved or cut off.
-/

namespace Retrace.Cil

/-- The place of one instruction in its method body. -/
structure Boundary where
  /-- Where the instruction starts. -/
  offset : Nat
  /-- How many bytes it takes, operands included. -/
  size : Nat
  /-- The extension byte of a two-byte opcode, zero for a one-byte opcode. -/
  lead : UInt8
  /-- The opcode behind the extension byte, or the only one. -/
  opcode : UInt8
deriving DecidableEq

open Decoder

/-- Moves the cursor over an operand. -/
def skipOperand : OperandLayout → Decoder Unit
  | .bytes count => skip count
  | .jumpTable => do
    let count ← unsigned 4
    skip (count * 4)

/-- The instruction at `start`, whose opcode has been read. -/
def boundaryFrom (start : Nat) (lead opcode : UInt8) (layout : OperandLayout) :
    Decoder Boundary := do
  skipOperand layout
  let stop ← position
  if start < wordLimit ∧ stop - start < wordLimit then
    return ⟨start, stop - start, lead, opcode⟩
  else
    throw (.malformed .bodyTooLarge)

/-- The instruction at `start`, whose first byte has been read. -/
def instructionFrom (start : Nat) (first : UInt8) : Decoder Boundary :=
  if first = extension then do
    let second ← byte
    match layoutIn extendedTable second with
    | some layout => boundaryFrom start extension second layout
    | none => throw (.malformed (.extendedOpcode second))
  else
    match layoutIn oneByteTable first with
    | some layout => boundaryFrom start 0 first layout
    | none => throw (.malformed (.opcode first))

/-- The instruction at the cursor. -/
def instruction : Decoder Boundary := fun c => (byte >>= instructionFrom c.pos) c

/-! ## Reading an instruction moves the cursor forward -/

/-- An operand is stepped over forward, a jump table included. -/
theorem forward_skipOperand (layout : OperandLayout) : Forward (skipOperand layout) := by
  cases layout with
  | bytes count => exact forward_skip count
  | jumpTable => exact (forward_unsigned 4).bind fun _ => forward_skip _

/-- What is read behind the opcode is read forward. -/
theorem forward_boundaryFrom (start : Nat) (lead opcode : UInt8) (layout : OperandLayout) :
    Forward (boundaryFrom start lead opcode layout) := by
  refine (forward_skipOperand layout).bind fun _ => forward_position.bind fun stop => ?_
  split
  · exact .pure _
  · exact .throw _

/-- The opcode behind a first byte, prefixed or not, is read forward. -/
theorem forward_instructionFrom (start : Nat) (first : UInt8) :
    Forward (instructionFrom start first) := by
  unfold instructionFrom
  split
  · refine forward_byte.bind fun second => ?_
    split
    · exact forward_boundaryFrom _ _ _ _
    · exact .throw _
  · split
    · exact forward_boundaryFrom _ _ _ _
    · exact .throw _

/-- An instruction is read forward. -/
theorem forward_instruction : Forward instruction :=
  fun c => (forward_byte.bind (forward_instructionFrom c.pos)) c

/-- An instruction takes at least one byte, so that a walk over a body ends. -/
theorem remaining_lt_of_instruction {c c' : Cursor} {b : Boundary}
    (h : instruction c = .ok b c') : c'.remaining < c.remaining :=
  remaining_lt_of_byte_bind (forward_instructionFrom c.pos) h

/-! ## Whole bodies -/

/-- The instructions from the cursor to the end of the body. -/
def boundariesFrom (c : Cursor) : Except DecodeError (List Boundary) :=
  match c.rest with
  | [] => .ok []
  | _ :: _ =>
    match h : instruction c with
    | .error e _ => .error e
    | .ok b c' =>
      have : c'.remaining < c.remaining := remaining_lt_of_instruction h
      (boundariesFrom c').map (b :: ·)
termination_by c.remaining

/-- The instructions of a method body, in order. -/
def boundaries (code : List UInt8) : Except DecodeError (List Boundary) :=
  boundariesFrom (.ofBytes code)

/-- The offsets at which the instructions of a method body start. -/
def instructionOffsets (code : List UInt8) : Except DecodeError (List Nat) :=
  (boundaries code).map (·.map (·.offset))

end Retrace.Cil
