/-!
# JSON values

Values as they are written: the members of an object are kept in order. Objects with free keys are
kept sorted by key (`Members.insert`); the order of strings by their characters is the order of
their UTF-8 bytes.
-/

namespace Retrace

/-- A number: an integer, or the spelling of any other number. -/
inductive JsonNumber
  | integer (value : Int)
  | decimal (spelling : String)
deriving DecidableEq

/-- A JSON value. -/
inductive Json
  | null
  | bool (value : Bool)
  | number (value : JsonNumber)
  | string (value : String)
  | array (items : List Json)
  | object (members : List (String × Json))

namespace Json

/-- The members of an object. -/
abbrev Members := List (String × Json)

/-- An integer as a value. -/
def ofNat (n : Nat) : Json := .number (.integer n)

namespace Members

/-- Sets a member, keeping the keys sorted and distinct. -/
def insert (key : String) (value : Json) : Members → Members
  | [] => [(key, value)]
  | (k, v) :: rest =>
    if key < k then (key, value) :: (k, v) :: rest
    else if key = k then (key, value) :: rest
    else (k, v) :: insert key value rest

/-- The sorted members of a list of pairs; of equal keys the last one counts. -/
def ofList (pairs : List (String × Json)) : Members :=
  pairs.foldl (fun members (key, value) => insert key value members) []

end Members

end Json

end Retrace
