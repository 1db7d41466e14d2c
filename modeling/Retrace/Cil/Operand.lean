/-!
# Operands of CIL instructions

How many bytes follow an opcode. One-byte opcodes and the opcodes behind the extension byte `0xFE`
have a table each; an opcode that no row covers is reserved.
-/

namespace Retrace.Cil

/-- What follows an opcode. -/
inductive OperandLayout
  /-- A fixed number of bytes. -/
  | bytes (count : Nat)
  /-- A 32-bit count, then as many 32-bit targets. -/
  | jumpTable
deriving DecidableEq

/-- A range of opcodes, ends included, with the layout that they share. -/
structure OpcodeRange where
  first : UInt8
  last : UInt8
  layout : OperandLayout

/-- The layout that a table gives to an opcode. -/
def layoutIn (table : List OpcodeRange) (opcode : UInt8) : Option OperandLayout :=
  (table.find? fun range => range.first ≤ opcode && opcode ≤ range.last).map (·.layout)

/-- The byte that announces a second opcode byte. -/
def extension : UInt8 := 0xFE

/-- One-byte opcodes. -/
def oneByteTable : List OpcodeRange := [
  -- nop, break, arguments and locals by number
  ⟨0x00, 0x0D, .bytes 0⟩,
  -- arguments and locals by a one-byte index
  ⟨0x0E, 0x13, .bytes 1⟩,
  -- small constants
  ⟨0x14, 0x1E, .bytes 0⟩, ⟨0x1F, 0x1F, .bytes 1⟩,
  -- constants of four and eight bytes
  ⟨0x20, 0x20, .bytes 4⟩, ⟨0x21, 0x21, .bytes 8⟩, ⟨0x22, 0x22, .bytes 4⟩, ⟨0x23, 0x23, .bytes 8⟩,
  ⟨0x25, 0x26, .bytes 0⟩,
  -- calls
  ⟨0x27, 0x29, .bytes 4⟩, ⟨0x2A, 0x2A, .bytes 0⟩,
  -- branches, short and long
  ⟨0x2B, 0x37, .bytes 1⟩, ⟨0x38, 0x44, .bytes 4⟩, ⟨0x45, 0x45, .jumpTable⟩,
  -- indirect access, arithmetic, conversions
  ⟨0x46, 0x6E, .bytes 0⟩,
  -- objects and strings
  ⟨0x6F, 0x75, .bytes 4⟩, ⟨0x76, 0x76, .bytes 0⟩, ⟨0x79, 0x79, .bytes 4⟩, ⟨0x7A, 0x7A, .bytes 0⟩,
  -- fields
  ⟨0x7B, 0x81, .bytes 4⟩, ⟨0x82, 0x8B, .bytes 0⟩,
  -- boxes and arrays
  ⟨0x8C, 0x8D, .bytes 4⟩, ⟨0x8E, 0x8E, .bytes 0⟩, ⟨0x8F, 0x8F, .bytes 4⟩, ⟨0x90, 0xA2, .bytes 0⟩,
  ⟨0xA3, 0xA5, .bytes 4⟩, ⟨0xB3, 0xBA, .bytes 0⟩,
  -- typed references and tokens
  ⟨0xC2, 0xC2, .bytes 4⟩, ⟨0xC3, 0xC3, .bytes 0⟩, ⟨0xC6, 0xC6, .bytes 4⟩, ⟨0xD0, 0xD0, .bytes 4⟩,
  ⟨0xD1, 0xDC, .bytes 0⟩,
  -- leaving protected regions
  ⟨0xDD, 0xDD, .bytes 4⟩, ⟨0xDE, 0xDE, .bytes 1⟩, ⟨0xDF, 0xE0, .bytes 0⟩]

/-- Opcodes behind the extension byte. -/
def extendedTable : List OpcodeRange := [
  -- comparisons
  ⟨0x00, 0x05, .bytes 0⟩,
  -- function pointers
  ⟨0x06, 0x07, .bytes 4⟩,
  -- arguments and locals by a two-byte index
  ⟨0x09, 0x0E, .bytes 2⟩, ⟨0x0F, 0x0F, .bytes 0⟩, ⟨0x11, 0x11, .bytes 0⟩, ⟨0x12, 0x12, .bytes 1⟩,
  ⟨0x13, 0x14, .bytes 0⟩,
  -- types
  ⟨0x15, 0x16, .bytes 4⟩, ⟨0x17, 0x18, .bytes 0⟩, ⟨0x19, 0x19, .bytes 1⟩, ⟨0x1A, 0x1A, .bytes 0⟩,
  ⟨0x1C, 0x1C, .bytes 4⟩, ⟨0x1D, 0x1E, .bytes 0⟩]

end Retrace.Cil
