import Retrace.Text.Hex

/-!
# Causes of decoding failures

A decoder stops either because the bytes end too early or because a value it read is not allowed.
`Malformed` lists the values that are not allowed; its `message` is their wording.
-/

namespace Retrace

/-- A coordinate of a source span. -/
inductive Coordinate
  | startLine | startColumn | endLine | endColumn
deriving DecidableEq

/-- The coordinate in words. -/
def Coordinate.name : Coordinate → String
  | .startLine => "start line"
  | .startColumn => "start column"
  | .endLine => "end line"
  | .endColumn => "end column"

/-- A value that the format of a byte stream does not allow. -/
inductive Malformed
  /-- The first byte of a compressed integer announces no width. -/
  | compressedInteger (first : UInt8)
  /-- No instruction has this one-byte opcode. -/
  | opcode (byte : UInt8)
  /-- No instruction has this opcode behind the extension byte. -/
  | extendedOpcode (byte : UInt8)
  /-- An instruction starts or extends beyond what 32 bits can number. -/
  | bodyTooLarge
  /-- The document table has no such row. -/
  | documentRow (row : Nat)
  /-- The sum of the offset deltas leaves 32 bits. -/
  | offsetOverflow
  /-- A point starts at or behind the end of the method body. -/
  | offsetOutside (offset codeSize : Nat)
  /-- A line or column that 32 bits cannot hold. -/
  | coordinate (which : Coordinate) (value : Int)
deriving DecidableEq

/-- The wording of a malformed value. -/
def Malformed.message : Malformed → String
  | .compressedInteger first => s!"Invalid compressed uint - {first.toNat}"
  | .opcode byte => s!"Invalid opcode: {Hex.byteUpper byte}"
  | .extendedOpcode byte => s!"Invalid opcode: FE {Hex.byteUpper byte}"
  | .bodyTooLarge => "Method body too large"
  | .documentRow row => s!"Unknown document row - {row}"
  | .offsetOverflow => "IL offset overflow"
  | .offsetOutside offset codeSize =>
    s!"Sequence point offset {Hex.marked offset} outside of method body " ++
      s!"({Hex.marked codeSize} bytes)"
  | .coordinate which value => s!"Invalid {which.name} - {value}"

/-- Why a decoder stopped. -/
inductive DecodeError
  /-- A read would pass the end of the bytes. -/
  | outOfBounds
  | malformed (cause : Malformed)
deriving DecidableEq

end Retrace
