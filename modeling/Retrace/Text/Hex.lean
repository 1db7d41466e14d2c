/-!
# Hexadecimal spelling

Offsets and tokens are spelled in lower-case hexadecimal digits, opcodes in two upper-case digits.
-/

namespace Retrace.Hex

/-- Lower-case digits without leading zeros; zero is spelled `0`. -/
def digits (n : Nat) : List Char :=
  Nat.toDigits 16 n

/-- Lower-case digits, filled up with leading zeros to at least `width`. -/
def padded (width n : Nat) : List Char :=
  List.replicate (width - (digits n).length) '0' ++ digits n

/-- A number with the `0x` marker and no leading zeros. -/
def marked (n : Nat) : String :=
  "0x" ++ String.ofList (digits n)

/-- A number with the `0x` marker and at least `width` digits. -/
def markedPadded (width n : Nat) : String :=
  "0x" ++ String.ofList (padded width n)

/-- A byte as two upper-case digits. -/
def byteUpper (b : UInt8) : String :=
  String.ofList ((padded 2 b.toNat).map Char.toUpper)

end Retrace.Hex
