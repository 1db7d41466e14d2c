import Retrace.Json.Value

/-!
# SARIF logs

The part of the SARIF 2.1.0 object model that reports use: a log holds runs, a run names the tool
with its rules and lists the results, and a result points to its rule and to a place.
-/

namespace Retrace.Sarif

/-- How a result is to be taken. -/
inductive Level
  | none | note | warning | error
deriving DecidableEq

/-- The level in a word. -/
def Level.name : Level → String
  | .none => "none"
  | .note => "note"
  | .warning => "warning"
  | .error => "error"

/-- The level of a word. -/
def Level.ofName? : String → Option Level
  | "none" => some .none
  | "note" => some .note
  | "warning" => some .warning
  | "error" => some .error
  | _ => Option.none

/-- How a rule is set up by default. -/
structure Configuration where
  enabled : Bool
  level : Level

/-- A rule of the tool. -/
structure Rule where
  id : String
  shortDescription : Option String
  fullDescription : Option String
  helpUri : Option String
  defaultConfiguration : Option Configuration
  properties : Json.Members

/-- Lines and columns of a file. -/
structure Region where
  startLine : Nat
  startColumn : Nat
  endLine : Nat
  endColumn : Nat

/-- A file and, where known, a region of it. -/
structure PhysicalLocation where
  uri : String
  region : Option Region

/-- A place that is not a place in a file. -/
structure LogicalLocation where
  decoratedName : String
  kind : String

/-- A place. -/
structure Place where
  physical : Option PhysicalLocation
  logical : List LogicalLocation

/-- One reported finding. -/
structure Result where
  ruleId : String
  /-- The index of the rule among the rules of the tool. -/
  ruleIndex : Nat
  level : Level
  message : Option String
  locations : List Place
  properties : Json.Members

/-- The tool that made a run. -/
structure Tool where
  name : String
  version : String
  rules : List Rule

/-- One run of a tool. -/
structure Run where
  tool : Tool
  results : List Result

/-- A log. -/
structure Log where
  schema : String
  version : String
  runs : List Run

end Retrace.Sarif
