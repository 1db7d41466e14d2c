/-!
# Characters of markup

Markup is read as a list of characters. Positions in messages count UTF-8 bytes.
-/

namespace Retrace.Markup

/-- White space between the parts of a tag. -/
def isSpace (c : Char) : Bool := c == ' ' || c == '\t' || c == '\r' || c == '\n'

/-- The quotes that enclose attribute values. -/
def isQuote (c : Char) : Bool := c == '\x22' || c == '\x27'

/-- The number of UTF-8 bytes of a text. -/
def byteLength : List Char → Nat
  | [] => 0
  | c :: cs => c.utf8Size + byteLength cs

theorem length_dropWhile_le (p : Char → Bool) (cs : List Char) :
    (cs.dropWhile p).length ≤ cs.length :=
  (List.dropWhile_suffix p).length_le

/-- The part of a name behind its first colon, or the whole name without one. -/
def localName (name : List Char) : List Char :=
  match name.dropWhile (· != ':') with
  | [] => name
  | _ :: rest => rest

end Retrace.Markup
