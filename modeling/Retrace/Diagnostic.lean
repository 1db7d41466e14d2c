import Retrace.Location

/-!
# Diagnostics

What an analysis engine reports about reconstructed source: the rule, how serious it is, the message
and where it applies.
-/

namespace Retrace

/-- How serious a diagnostic is, least serious first. -/
inductive Severity
  | hidden | info | warning | error
deriving DecidableEq

namespace Severity

/-- All severities, least serious first. -/
def all : List Severity := [hidden, info, warning, error]

/-- The severity's place in the order. -/
def rank : Severity → Nat
  | hidden => 0
  | info => 1
  | warning => 2
  | error => 3

/-- The severity in a word. -/
def name : Severity → String
  | hidden => "Hidden"
  | info => "Info"
  | warning => "Warning"
  | error => "Error"

/-- The severity of a name, in any case of its ASCII letters. -/
def ofName? (name : String) : Option Severity :=
  match name.toLower with
  | "hidden" => some hidden
  | "info" => some info
  | "warning" => some warning
  | "error" => some error
  | _ => none

/-- The severities that are at most as serious as this one, least serious first. -/
def upTo (s : Severity) : List Severity := all.filter fun t => t.rank ≤ s.rank

end Severity

/-- What is known about a rule. -/
structure RuleDescriptor where
  id : String
  title : String
  description : String
  helpUri : Option String
  category : String
  tags : List String
  defaultSeverity : Severity
  enabledByDefault : Bool
deriving DecidableEq

/-- One finding of an analysis engine. -/
structure Diagnostic where
  /-- The rule that was broken. -/
  id : String
  severity : Severity
  message : String
  location : Location
  /-- Whether the source text suppresses the finding. -/
  isSuppressed : Bool
  warningLevel : Nat
  /-- Further data, keyed by name. -/
  properties : List (String × String)
  /-- The rule's description, if the engine has one. -/
  descriptor : Option RuleDescriptor
deriving DecidableEq

end Retrace
