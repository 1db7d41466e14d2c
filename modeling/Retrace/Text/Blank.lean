/-!
# Blank text

Which characters are white space, in the sense of the Unicode property `White_Space`, and whether a
text holds nothing else.
-/

namespace Retrace.Text

/-- The ranges of the property `White_Space`, ends included. -/
def blankRanges : List (Nat × Nat) := [
  (0x9, 0xD), (0x20, 0x20), (0x85, 0x85), (0xA0, 0xA0), (0x1680, 0x1680), (0x2000, 0x200A),
  (0x2028, 0x2029), (0x202F, 0x202F), (0x205F, 0x205F), (0x3000, 0x3000)]

/-- Whether a character is white space. -/
def isBlankChar (c : Char) : Bool :=
  blankRanges.any fun (first, last) => first ≤ c.toNat && c.toNat ≤ last

/-- Whether a text holds nothing but white space. -/
def isBlank (s : String) : Bool := s.toList.all isBlankChar

/-- The text unless it is blank. -/
def nonBlank (s : String) : Option String := if isBlank s then none else some s

end Retrace.Text
