import Retrace.Json.Printer
import Retrace.Sarif.Log

/-!
# Writing SARIF logs

A log as a JSON value. The fields of each object have a fixed order; what is absent or empty is left
out where the format allows it.
-/

namespace Retrace.Sarif

/-- A member that is left out if there is no value. -/
def present (key : String) : Option Json → Json.Members
  | none => []
  | some value => [(key, value)]

/-- A member that is left out if there are no items. -/
def nonemptyArray (key : String) : List Json → Json.Members
  | [] => []
  | items => [(key, .array items)]

/-- A member that is left out if there are no members. -/
def nonemptyObject (key : String) : Json.Members → Json.Members
  | [] => []
  | members => [(key, .object members)]

/-- A message. -/
def messageJson (text : String) : Json := .object [("text", .string text)]

/-- The setup of a rule; both fields are always written. -/
def Configuration.toJson (c : Configuration) : Json :=
  .object [("enabled", .bool c.enabled), ("level", .string c.level.name)]

/-- A rule; only its identifier is always written. -/
def Rule.toJson (r : Rule) : Json :=
  .object ([("id", .string r.id)] ++
    present "shortDescription" (r.shortDescription.map messageJson) ++
    present "fullDescription" (r.fullDescription.map messageJson) ++
    present "helpUri" (r.helpUri.map .string) ++
    present "defaultConfiguration" (r.defaultConfiguration.map Configuration.toJson) ++
    nonemptyObject "properties" r.properties)

/-- The four numbers of a region. -/
def Region.toJson (r : Region) : Json :=
  .object [("startLine", .ofNat r.startLine), ("startColumn", .ofNat r.startColumn),
    ("endLine", .ofNat r.endLine), ("endColumn", .ofNat r.endColumn)]

/-- A file, by its address, and its region if it has one. -/
def PhysicalLocation.toJson (l : PhysicalLocation) : Json :=
  .object ([("artifactLocation", .object [("uri", .string l.uri)])] ++
    present "region" (l.region.map Region.toJson))

/-- A place that is not in a file. -/
def LogicalLocation.toJson (l : LogicalLocation) : Json :=
  .object [("decoratedName", .string l.decoratedName), ("kind", .string l.kind)]

/-- A place, without the parts that it lacks. -/
def Place.toJson (p : Place) : Json :=
  .object (present "physicalLocation" (p.physical.map PhysicalLocation.toJson) ++
    nonemptyArray "logicalLocations" (p.logical.map LogicalLocation.toJson))

/-- A result; its message and its free properties may be left out. -/
def Result.toJson (r : Result) : Json :=
  .object ([("ruleId", .string r.ruleId), ("ruleIndex", .ofNat r.ruleIndex),
      ("level", .string r.level.name)] ++
    present "message" (r.message.map messageJson) ++
    [("locations", .array (r.locations.map Place.toJson))] ++
    nonemptyObject "properties" r.properties)

/-- A tool, in the object that the format wraps around it. -/
def Tool.toJson (t : Tool) : Json :=
  .object [("driver", .object ([("name", .string t.name), ("version", .string t.version)] ++
    nonemptyArray "rules" (t.rules.map Rule.toJson)))]

/-- A run: the tool first, then the results. -/
def Run.toJson (r : Run) : Json :=
  .object [("tool", r.tool.toJson), ("results", .array (r.results.map Result.toJson))]

/-- A log, with the schema first. -/
def Log.toJson (l : Log) : Json :=
  .object [("$schema", .string l.schema), ("version", .string l.version),
    ("runs", .array (l.runs.map Run.toJson))]

/-- The text of a log. -/
def Log.render (layout : Json.Layout) (l : Log) : String := Json.render layout l.toJson

end Retrace.Sarif
