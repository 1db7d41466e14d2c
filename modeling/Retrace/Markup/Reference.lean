import Retrace.Bytes.Word
import Retrace.Markup.Chars

/-!
# References in attribute values

A reference `&…;` stands for a character: by one of five names, or by its number in decimal or
hexadecimal digits. `expand` replaces the references of a value from left to right.
-/

namespace Retrace.Markup

/-- What is wrong with the number of a character. -/
inductive NumberError
  | sign | empty | digit | tooLarge
  /-- The number zero. -/
  | zero
  /-- A surrogate, or a number beyond the last character. -/
  | notACharacter (n : Nat)
deriving DecidableEq

/-- The wording of a number error. -/
def NumberError.message : NumberError → String
  | .sign => "unexpected number sign"
  | .empty => "cannot parse integer from empty string"
  | .digit => "invalid digit found in string"
  | .tooLarge => "number too large to fit in target type"
  | .zero => "0x0 character is not permitted in XML"
  | .notACharacter n => s!"`{n}` is not a valid codepoint"

/-- What is wrong with a reference. Positions are those of bytes in the value. -/
inductive ReferenceError
  /-- No semicolon ends the reference that starts there. -/
  | unterminated (start length : Nat)
  | unknownName (start stop : Nat) (name : String)
  | number (error : NumberError)
deriving DecidableEq

/-- The wording of a reference error. -/
def ReferenceError.message : ReferenceError → String
  | .unterminated start length =>
    s!"Error while escaping character at range {start}..{length}: Cannot find ';' after '&'"
  | .unknownName start stop name => s!"at {start}..{stop}: unrecognized entity `{name}`"
  | .number error => "invalid character reference: " ++ error.message

/-- The value of a digit in a base up to sixteen. -/
def digitValue? (base : Nat) (c : Char) : Option Nat :=
  let value :=
    if '0' ≤ c ∧ c ≤ '9' then some (c.toNat - '0'.toNat)
    else if 'a' ≤ c ∧ c ≤ 'f' then some (c.toNat - 'a'.toNat + 10)
    else if 'A' ≤ c ∧ c ≤ 'F' then some (c.toNat - 'A'.toNat + 10)
    else none
  value.filter (· < base)

/-- Reads digits behind the number `n` read so far; the number has to stay within 32 bits. -/
def digits (base : Nat) : Nat → List Char → Except NumberError Nat
  | n, [] => .ok n
  | n, c :: cs =>
    match digitValue? base c with
    | none => .error .digit
    | some d => if n * base + d < wordLimit then digits base (n * base + d) cs else .error .tooLarge

/-- An unsigned number without a sign. -/
def number (base : Nat) (cs : List Char) : Except NumberError Nat :=
  match cs with
  | [] => .error .empty
  | '+' :: _ => .error .sign
  | '-' :: _ => .error .sign
  | _ => digits base 0 cs

/-- The character that a numeric reference stands for; `x` announces hexadecimal digits. -/
def numberedChar (cs : List Char) : Except NumberError Char := do
  let n ←
    match cs with
    | 'x' :: hex => number 16 hex
    | decimal => number 10 decimal
  if n = 0 then
    .error .zero
  else if h : n.isValidChar then
    .ok (Char.ofNatAux n h)
  else
    .error (.notACharacter n)

/-- The character that a name stands for. -/
def namedChar? (name : List Char) : Option Char :=
  match String.ofList name with
  | "lt" => some '<'
  | "gt" => some '>'
  | "amp" => some '&'
  | "apos" => some '\x27'
  | "quot" => some '\x22'
  | _ => none

/-- The character that a reference stands for, given the position and the text of its name. -/
def reference (start : Nat) (name : List Char) : Except ReferenceError Char :=
  match name with
  | '#' :: digits =>
    match numberedChar digits with
    | .ok c => .ok c
    | .error e => .error (.number e)
  | _ =>
    match namedChar? name with
    | some c => .ok c
    | none => .error (.unknownName start (start + byteLength name) (String.ofList name))

/-- Replaces the references of a value of `length` bytes, from position `pos` on. -/
def expandFrom (length pos : Nat) (cs : List Char) : Except ReferenceError (List Char) :=
  match cs with
  | [] => .ok []
  | '&' :: rest =>
    let name := rest.takeWhile fun c => c != '&' && c != ';'
    match h : rest.dropWhile fun c => c != '&' && c != ';' with
    | ';' :: rest' =>
      have : rest'.length < rest.length + 1 := by
        have := length_dropWhile_le (fun c => c != '&' && c != ';') rest
        rw [h] at this
        simp only [List.length_cons] at this
        omega
      match reference (pos + 1) name with
      | .error e => .error e
      | .ok c => (expandFrom length (pos + byteLength name + 2) rest').map (c :: ·)
    | _ => .error (.unterminated pos length)
  | c :: rest => (expandFrom length (pos + c.utf8Size) rest).map (c :: ·)
termination_by cs.length

/-- The text of an attribute value. -/
def expand (value : List Char) : Except ReferenceError String :=
  (expandFrom (byteLength value) 0 value).map String.ofList

end Retrace.Markup
