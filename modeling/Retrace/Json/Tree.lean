import Retrace.Bytes.Word
import Retrace.Json.Lexer
import Retrace.Json.Value

/-!
# JSON text as a tree

The lexemes of a text are built into a tree by a machine that keeps the open containers on a stack,
so that text may be nested as deeply as it likes. A tree is closer to the text than a value: it
keeps repeated keys, the spelling of numbers, and strings that denote no text. What is wrong with
those only shows when that part of the tree is asked for.
-/

namespace Retrace.Json

/-- The structure of a text. -/
inductive Tree
  | null
  | bool (value : Bool)
  | number (literal : NumberLiteral)
  | string (value : Option String)
  | array (items : List Tree)
  | object (members : List (Option String × Tree))

namespace Tree

/-- An open container, with what it holds so far, latest first. -/
inductive Frame
  | array (done : List Tree)
  /-- The value of `key` comes next. -/
  | object (done : List (Option String × Tree)) (key : Option String)

/-- What may come next. -/
inductive Expected
  | value
  /-- A value, or the end of an array that is empty so far. -/
  | item
  /-- A key, or the end of an object that is empty so far. -/
  | member
  | key (done : List (Option String × Tree))
  | colon (done : List (Option String × Tree)) (key : Option String)
  /-- The value is complete: a comma, or the end of its container. -/
  | separator (value : Tree)

/-- A value that is a single lexeme. -/
def ofLexeme? : Lexeme → Option Tree
  | .null => some .null
  | .bool value => some (.bool value)
  | .number literal => some (.number literal)
  | .string value => some (.string value)
  | _ => none

/-- Begins a value. -/
def begin (stack : List Frame) : Lexeme → Option (List Frame × Expected)
  | .openBracket => some (.array [] :: stack, .item)
  | .openBrace => some (stack, .member)
  | lexeme => (ofLexeme? lexeme).map fun value => (stack, .separator value)

/-- Takes a lexeme. -/
def step (stack : List Frame) : Expected → Lexeme → Option (List Frame × Expected)
  | .value, lexeme => begin stack lexeme
  | .item, .closeBracket =>
    match stack with
    | .array done :: stack => some (stack, .separator (.array done.reverse))
    | _ => none
  | .item, lexeme => begin stack lexeme
  | .member, .closeBrace => some (stack, .separator (.object []))
  | .member, .string key => some (stack, .colon [] key)
  | .key done, .string key => some (stack, .colon done key)
  | .colon done key, .colon => some (.object done key :: stack, .value)
  | .separator value, .comma =>
    match stack with
    | .array done :: stack => some (.array (value :: done) :: stack, .value)
    | .object done key :: stack => some (stack, .key ((key, value) :: done))
    | [] => none
  | .separator value, .closeBracket =>
    match stack with
    | .array done :: stack => some (stack, .separator (.array (value :: done).reverse))
    | _ => none
  | .separator value, .closeBrace =>
    match stack with
    | .object done key :: stack => some (stack, .separator (.object ((key, value) :: done).reverse))
    | _ => none
  | _, _ => none

/-- The tree of lexemes, given the open containers and what may come next. -/
def build (stack : List Frame) (expected : Expected) : List Lexeme → Option Tree
  | [] =>
    match stack, expected with
    | [], .separator value => some value
    | _, _ => none
  | lexeme :: rest =>
    match step stack expected lexeme with
    | none => none
    | some (stack, expected) => build stack expected rest

/-- The tree of a text that is exactly one value. -/
def parse (text : String) : Option Tree := (lexemes text.toList).bind (build [] .value)

/-! ## Asking for parts of a tree -/

/-- The integers that a value can hold: 64 bits, read with or without a sign. -/
def isStored (n : Int) : Bool := -(longLimit / 2 : Nat) ≤ n && n < longLimit

/-- The number of a literal. -/
def numberOf (l : NumberLiteral) : JsonNumber :=
  match l.integer?.filter isStored with
  | some n => .integer n
  | none => .decimal l.spelling

/-- How many containers may lie inside each other where values are kept. -/
def depthLimit : Nat := 127

mutual

/-- The value of a tree inside `depth` containers. -/
def value? (depth : Nat) : Tree → Option Json
  | .null => some .null
  | .bool value => some (.bool value)
  | .number literal => some (.number (numberOf literal))
  | .string value => value.map .string
  | .array items =>
    if depth < depthLimit then (values? (depth + 1) items).map .array else none
  | .object members =>
    if depth < depthLimit then
      (memberValues? (depth + 1) members).map fun pairs => .object (Members.ofList pairs)
    else none

/-- The values of items. -/
def values? (depth : Nat) : List Tree → Option (List Json)
  | [] => some []
  | item :: rest =>
    match value? depth item, values? depth rest with
    | some value, some values => some (value :: values)
    | _, _ => none

/-- The values of members. -/
def memberValues? (depth : Nat) : List (Option String × Tree) → Option (List (String × Json))
  | [] => some []
  | (key, item) :: rest =>
    match key, value? depth item, memberValues? depth rest with
    | some key, some value, some values => some ((key, value) :: values)
    | _, _, _ => none

end

/-- The text of a string. -/
def text? : Tree → Option String
  | .string value => value
  | _ => none

/-- The truth value. -/
def bool? : Tree → Option Bool
  | .bool value => some value
  | _ => none

/-- An unsigned integer below a limit. -/
def nat? (limit : Nat) : Tree → Option Nat
  | .number literal =>
    match literal.integer? with
    | some n => if 0 ≤ n ∧ n < limit then some n.toNat else none
    | none => none
  | _ => none

/-- The items of an array, each read by `read`. -/
def list? {α : Type} (read : Tree → Option α) : Tree → Option (List α)
  | .array items => items.mapM read
  | _ => none

/-- The sorted members of an object inside `depth` containers. -/
def members? (depth : Nat) : Tree → Option Members
  | .object members => (memberValues? (depth + 1) members).map Members.ofList
  | _ => none

/-! ## Records

A record is written as an object, or as an array of its fields in their fixed order, where fields at
the end may be left out if they may be absent. -/

/-- The part of a field. Of equal keys that are fields none is accepted; other keys are skipped. -/
def fieldOf? (name : String) (members : List (Option String × Tree)) : Option (Option Tree) :=
  match members.filter fun m => m.1 == some name with
  | [] => some none
  | [(_, t)] => some (some t)
  | _ => none

/-- The parts of the fields of a record, where they are present. -/
def fields? (names : List String) : Tree → Option (List (Option Tree))
  | .object members =>
    if members.all fun m => m.1.isSome then names.mapM fun name => fieldOf? name members else none
  | .array items =>
    if items.length ≤ names.length then
      some (items.map some ++ List.replicate (names.length - items.length) none)
    else none
  | _ => none

/-- A field that has to be present. -/
def required {α : Type} (read : Tree → Option α) (part : Option Tree) : Option α := part.bind read

/-- A field that may be absent or null. -/
def optional {α : Type} (read : Tree → Option α) : Option Tree → Option (Option α)
  | none => some none
  | some .null => some none
  | some t => (read t).map some

/-- A field that may be absent, with the value it then has. -/
def defaulted {α : Type} (absent : α) (read : Tree → Option α) : Option Tree → Option α
  | none => some absent
  | some t => read t

end Tree

end Retrace.Json
