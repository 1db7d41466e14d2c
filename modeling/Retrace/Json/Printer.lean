import Retrace.Json.Value

/-!
# Writing JSON

A value is written without any blanks, or with each member and item on a line of its own, indented
by two blanks for each container around it. Strings escape the quote, the backslash and the control
characters below the blank, and nothing else.
-/

namespace Retrace.Json

/-- How a value is laid out. -/
inductive Layout
  | compact | indented
deriving DecidableEq

/-- The lower-case hexadecimal digit of a number below sixteen. -/
def hexDigit (n : Nat) : Char := Char.ofNat (if n < 10 then 48 + n else 87 + n)

/-- A character inside a string. -/
def escape (c : Char) : List Char :=
  match c with
  | '\x22' => ['\\', '\x22']
  | '\\' => ['\\', '\\']
  | '\x08' => ['\\', 'b']
  | '\t' => ['\\', 't']
  | '\n' => ['\\', 'n']
  | '\x0c' => ['\\', 'f']
  | '\r' => ['\\', 'r']
  | c =>
    if c.toNat < 0x20 then ['\\', 'u', '0', '0', hexDigit (c.toNat / 16), hexDigit (c.toNat % 16)]
    else [c]

/-- A string in quotes. -/
def quoted (s : String) : List Char := '\x22' :: (s.toList.flatMap escape ++ ['\x22'])

/-- A number. -/
def spelled : JsonNumber → List Char
  | .integer value => (toString value).toList
  | .decimal spelling => spelling.toList

/-- What stands between brackets and items: nothing, or a line feed and the indentation. -/
def lineBreak (layout : Layout) (depth : Nat) : List Char :=
  match layout with
  | .compact => []
  | .indented => '\n' :: List.replicate (2 * depth) ' '

/-- What stands between a key and its value. -/
def colon : Layout → List Char
  | .compact => [':']
  | .indented => [':', ' ']

mutual

/-- The text of a value inside `depth` containers. -/
def chars (layout : Layout) (depth : Nat) : Json → List Char
  | .null => ['n', 'u', 'l', 'l']
  | .bool true => ['t', 'r', 'u', 'e']
  | .bool false => ['f', 'a', 'l', 's', 'e']
  | .number value => spelled value
  | .string value => quoted value
  | .array [] => ['[', ']']
  | .array (item :: rest) =>
    '[' :: (lineBreak layout (depth + 1) ++ chars layout (depth + 1) item ++
      itemChars layout (depth + 1) rest ++ lineBreak layout depth ++ [']'])
  | .object [] => ['\x7b', '\x7d']
  | .object ((key, value) :: rest) =>
    '\x7b' :: (lineBreak layout (depth + 1) ++ quoted key ++ colon layout ++
      chars layout (depth + 1) value ++ memberChars layout (depth + 1) rest ++
      lineBreak layout depth ++ ['\x7d'])

/-- The text of the items behind the first one. -/
def itemChars (layout : Layout) (depth : Nat) : List Json → List Char
  | [] => []
  | item :: rest =>
    ',' :: (lineBreak layout depth ++ chars layout depth item ++ itemChars layout depth rest)

/-- The text of the members behind the first one. -/
def memberChars (layout : Layout) (depth : Nat) : List (String × Json) → List Char
  | [] => []
  | (key, value) :: rest =>
    ',' :: (lineBreak layout depth ++ quoted key ++ colon layout ++ chars layout depth value ++
      memberChars layout depth rest)

end

/-- The text of a value. -/
def render (layout : Layout) (value : Json) : String := String.ofList (chars layout 0 value)

end Retrace.Json
