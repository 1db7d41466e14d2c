import Retrace.Bytes.Word
import Retrace.Json.Tree
import Retrace.Sarif.Log

/-!
# Reading SARIF logs

A log from JSON text. Unknown fields are skipped, a field that occurs twice is refused, and free
properties keep any value they have. Whatever does not fit makes the whole log unreadable.
-/

namespace Retrace.Sarif

open Json

/-- A level: its name, or an object with its name as the only key and no value. -/
def Level.ofTree? : Tree → Option Level
  | .string (some name) => Level.ofName? name
  | .object [(some name, .null)] => Level.ofName? name
  | _ => Option.none

/-- A message. -/
def messageOfTree? (t : Tree) : Option String :=
  match t.fields? ["text"] with
  | some [text] => Tree.required Tree.text? text
  | _ => none

/-- The setup of a rule. -/
def Configuration.ofTree? (t : Tree) : Option Configuration :=
  match t.fields? ["enabled", "level"] with
  | some [enabled, level] => do
    let enabled ← Tree.required Tree.bool? enabled
    let level ← Tree.required Level.ofTree? level
    return { enabled, level }
  | _ => none

/-- A rule, whose properties lie inside `depth` containers. -/
def Rule.ofTree? (depth : Nat) (t : Tree) : Option Rule :=
  match t.fields? ["id", "shortDescription", "fullDescription", "helpUri", "defaultConfiguration",
      "properties"] with
  | some [id, short, full, help, configuration, properties] => do
    let id ← Tree.required Tree.text? id
    let shortDescription ← Tree.optional messageOfTree? short
    let fullDescription ← Tree.optional messageOfTree? full
    let helpUri ← Tree.optional Tree.text? help
    let defaultConfiguration ← Tree.optional Configuration.ofTree? configuration
    let properties ← Tree.defaulted [] (Tree.members? depth) properties
    return { id, shortDescription, fullDescription, helpUri, defaultConfiguration, properties }
  | _ => none

/-- Lines and columns are 32-bit numbers. -/
def Region.ofTree? (t : Tree) : Option Region :=
  match t.fields? ["startLine", "startColumn", "endLine", "endColumn"] with
  | some [startLine, startColumn, endLine, endColumn] => do
    let startLine ← Tree.required (Tree.nat? wordLimit) startLine
    let startColumn ← Tree.required (Tree.nat? wordLimit) startColumn
    let endLine ← Tree.required (Tree.nat? wordLimit) endLine
    let endColumn ← Tree.required (Tree.nat? wordLimit) endColumn
    return { startLine, startColumn, endLine, endColumn }
  | _ => none

/-- The address of a file. -/
def uriOfTree? (t : Tree) : Option String :=
  match t.fields? ["uri"] with
  | some [uri] => Tree.required Tree.text? uri
  | _ => none

/-- A file with its region. -/
def PhysicalLocation.ofTree? (t : Tree) : Option PhysicalLocation :=
  match t.fields? ["artifactLocation", "region"] with
  | some [artifact, region] => do
    let uri ← Tree.required uriOfTree? artifact
    let region ← Tree.optional Region.ofTree? region
    return { uri, region }
  | _ => none

/-- A place that is not in a file. -/
def LogicalLocation.ofTree? (t : Tree) : Option LogicalLocation :=
  match t.fields? ["decoratedName", "kind"] with
  | some [decoratedName, kind] => do
    let decoratedName ← Tree.required Tree.text? decoratedName
    let kind ← Tree.required Tree.text? kind
    return { decoratedName, kind }
  | _ => none

/-- A place; what it leaves out is absent or empty. -/
def Place.ofTree? (t : Tree) : Option Place :=
  match t.fields? ["physicalLocation", "logicalLocations"] with
  | some [physical, logical] => do
    let physical ← Tree.optional PhysicalLocation.ofTree? physical
    let logical ← Tree.defaulted [] (Tree.list? LogicalLocation.ofTree?) logical
    return { physical, logical }
  | _ => none

/-- A result, whose properties lie inside `depth` containers. -/
def Result.ofTree? (depth : Nat) (t : Tree) : Option Result :=
  match t.fields? ["ruleId", "ruleIndex", "level", "message", "locations", "properties"] with
  | some [ruleId, ruleIndex, level, message, locations, properties] => do
    let ruleId ← Tree.required Tree.text? ruleId
    let ruleIndex ← Tree.required (Tree.nat? longLimit) ruleIndex
    let level ← Tree.required Level.ofTree? level
    let message ← Tree.optional messageOfTree? message
    let locations ← Tree.required (Tree.list? Place.ofTree?) locations
    let properties ← Tree.defaulted [] (Tree.members? depth) properties
    return { ruleId, ruleIndex, level, message, locations, properties }
  | _ => none

/-- The description of a tool. Its rules lie inside six containers: log, runs, run, tool, this
description and the list of rules. -/
def driverOfTree? (t : Tree) : Option Tool :=
  match t.fields? ["name", "version", "rules"] with
  | some [name, version, rules] => do
    let name ← Tree.required Tree.text? name
    let version ← Tree.required Tree.text? version
    let rules ← Tree.defaulted [] (Tree.list? (Rule.ofTree? 7)) rules
    return { name, version, rules }
  | _ => none

/-- A tool, which the format wraps in one more object than there are fields for. -/
def Tool.ofTree? (t : Tree) : Option Tool :=
  match t.fields? ["driver"] with
  | some [driver] => Tree.required driverOfTree? driver
  | _ => none

/-- A run. Its results lie inside four containers: log, runs, run and the list of results. -/
def Run.ofTree? (t : Tree) : Option Run :=
  match t.fields? ["tool", "results"] with
  | some [tool, results] => do
    let tool ← Tree.required Tool.ofTree? tool
    let results ← Tree.required (Tree.list? (Result.ofTree? 5)) results
    return { tool, results }
  | _ => none

/-- A log, with the schema under its marked name. -/
def Log.ofTree? (t : Tree) : Option Log :=
  match t.fields? ["$schema", "version", "runs"] with
  | some [schema, version, runs] => do
    let schema ← Tree.required Tree.text? schema
    let version ← Tree.required Tree.text? version
    let runs ← Tree.required (Tree.list? Run.ofTree?) runs
    return { schema, version, runs }
  | _ => none

/-- The log of a text. -/
def Log.parse (text : String) : Option Log := (Tree.parse text).bind Log.ofTree?

end Retrace.Sarif
