/-!
# Lines

A text as lines: each ends at a line feed, a carriage return before the line feed belongs to the
ending, and no line follows a line feed at the very end.
-/

namespace Retrace.Text

/-- Puts a character in front of the first line. -/
def prependToFirst (c : Char) : List (List Char) → List (List Char)
  | [] => [[c]]
  | line :: rest => (c :: line) :: rest

/-- The lines of a text, endings removed. -/
def splitLines : List Char → List (List Char)
  | [] => []
  | '\n' :: rest => [] :: splitLines rest
  | '\r' :: '\n' :: rest => [] :: splitLines rest
  | c :: rest => prependToFirst c (splitLines rest)

/-- The lines of a text. -/
def lines (s : String) : List String := (splitLines s.toList).map String.ofList

end Retrace.Text
