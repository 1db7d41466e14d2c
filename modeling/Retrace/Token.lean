import Retrace.Text.Hex

/-!
# Metadata tokens

A token names a row of a metadata table: the table in the high byte, the row in the three low ones.
The tokens of method definitions identify functions.
-/

namespace Retrace

/-- A 32-bit metadata token. -/
structure Token where
  value : UInt32
deriving DecidableEq

namespace Token

/-- The table of method definitions. -/
def methodTable : Nat := 6

/-- The token of a method definition; of the row, the low three bytes count. -/
def methodDef (row : UInt32) : Token := ⟨0x06000000 ||| (row &&& 0xFFFFFF)⟩

/-- The number of the table. -/
def table (t : Token) : Nat := t.value.toNat / 0x1000000

/-- The number of the row. -/
def row (t : Token) : Nat := t.value.toNat % 0x1000000

/-- Whether the token is zero, which names nothing. -/
def isNull (t : Token) : Bool := t.value == 0

/-- Whether the token names a row of the table of method definitions. -/
def isMethodDef (t : Token) : Bool := t.table == methodTable && t.row != 0

/-- The token in eight hexadecimal digits. -/
def render (t : Token) : String := Hex.markedPadded 8 t.value.toNat

/-- The token with its parts named. -/
def describe (t : Token) : String :=
  s!"Token({t.render}, table: {Hex.markedPadded 2 t.table}, row: {t.row})"

end Token

end Retrace
