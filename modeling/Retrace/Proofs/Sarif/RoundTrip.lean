import Retrace.Proofs.Json.Record
import Retrace.Sarif.Read
import Retrace.Sarif.Write

/-!
# A written log is read back

Reading the text of a log gives the log (`Log.parse_render`), in either layout, if its numbers fit
the words that they are read into and its free properties are values that can be kept (`Log.Fits`).

Each part of the format is a record. Its object is the one of `Members.ofSlots`, so its fields are
found again, and then each field is read. Everything that is left out when it is absent or empty is
read as absent or empty.
-/

namespace Retrace.Sarif

open Json

/-! ## Parts that are left out -/

/-- A field that may be missing is written as a slot. -/
theorem present_eq (key : String) (value : Option Json) :
    present key value = (value.map fun v => (key, v)).toList := by
  cases value with
  | none => rfl
  | some v => rfl

/-- An array, unless it is empty. -/
def arraySlot (items : List Json) : Option Json := if items = [] then none else some (.array items)

/-- An object, unless it is empty. -/
def objectSlot (members : Members) : Option Json :=
  if members = [] then none else some (.object members)

/-- An array that is left out if it is empty is written as a slot. -/
theorem nonemptyArray_eq (key : String) (items : List Json) :
    nonemptyArray key items = ((arraySlot items).map fun v => (key, v)).toList := by
  cases items with
  | nil => rfl
  | cons item items => rfl

/-- An object that is left out if it is empty is written as a slot. -/
theorem nonemptyObject_eq (key : String) (members : Members) :
    nonemptyObject key members = ((objectSlot members).map fun v => (key, v)).toList := by
  cases members with
  | nil => rfl
  | cons member members => rfl

/-- Items that are left out when there are none are read back. -/
theorem defaulted_arraySlot {α : Type} {read : Tree → Option α} {write : α → Json} {items : List α}
    (h : ∀ a ∈ items, read (treeOf (write a)) = some a) :
    Tree.defaulted [] (Tree.list? read) ((arraySlot (items.map write)).map treeOf) = some items := by
  cases items with
  | nil => rfl
  | cons item items => exact Tree.list?_map h

/-- Members that can be kept inside `depth` containers. -/
structure Kept (depth : Nat) (members : Members) : Prop where
  sorted : members.Sorted
  storable : ∀ m ∈ members, m.2.Storable (depth + 1)

/-- Members that are left out when there are none are read back. -/
theorem Kept.defaulted_objectSlot {depth : Nat} {members : Members} (h : Kept depth members) :
    Tree.defaulted [] (Tree.members? depth) ((objectSlot members).map treeOf) = some members := by
  cases members with
  | nil => rfl
  | cons member members => exact Tree.members?_treeOf h.sorted h.storable

/-- Members that can be kept have integers only. -/
theorem Kept.integral_objectSlot {depth : Nat} {members : Members} (h : Kept depth members) :
    ∀ v ∈ objectSlot members, v.Integral := by
  intro v hv
  unfold objectSlot at hv
  split at hv
  · cases hv
  · cases hv
    exact .object fun m hm => (h.storable m hm).integral

/-- An array has integers only if its items do, and so has the slot that it is written as. -/
theorem integral_arraySlot {α : Type} {write : α → Json} {items : List α}
    (h : ∀ a ∈ items, (write a).Integral) : ∀ v ∈ arraySlot (items.map write), v.Integral := by
  intro v hv
  unfold arraySlot at hv
  split at hv
  · cases hv
  · cases hv
    exact .array_map h

/-- A value that may be missing has integers only if it does where it is there. -/
theorem integral_map {α : Type} {write : α → Json} {value : Option α}
    (h : ∀ a ∈ value, (write a).Integral) : ∀ v ∈ value.map write, v.Integral := by
  intro v hv
  obtain ⟨a, ha, rfl⟩ := Option.map_eq_some_iff.1 hv
  exact h a ha

/-- A field that is always written. -/
theorem integral_some {v : Json} (h : v.Integral) : ∀ v' ∈ some v, v'.Integral := by
  rintro _ ⟨⟩
  exact h

/-! ## Texts and levels -/

/-- A level is found again by its name. -/
theorem Level.ofName?_name (level : Level) : Level.ofName? level.name = some level := by
  cases level with
  | none => rfl
  | note => rfl
  | warning => rfl
  | error => rfl

/-- A level is read back. -/
theorem Level.ofTree?_name (level : Level) :
    Level.ofTree? (treeOf (.string level.name)) = some level :=
  level.ofName?_name

/-- The text of a message is read back. -/
theorem messageOfTree?_messageJson (text : String) :
    messageOfTree? (treeOf (messageJson text)) = some text := rfl

/-- A message has no numbers. -/
theorem integral_messageJson (text : String) : (messageJson text).Integral :=
  .object fun _ hm => List.mem_singleton.1 hm ▸ .string text

/-- A message is read back, or is missing if it was not written. -/
theorem optional_message (message : Option String) :
    Tree.optional messageOfTree? ((message.map messageJson).map treeOf) = some message :=
  Tree.optional_map fun text _ => ⟨nofun, messageOfTree?_messageJson text⟩

/-- A text is read back, or is missing if it was not written. -/
theorem optional_text (text : Option String) :
    Tree.optional Tree.text? ((text.map Json.string).map treeOf) = some text :=
  Tree.optional_map fun _ _ => ⟨nofun, rfl⟩

/-! ## Rules -/

/-- The fields of the setup of a rule. -/
def Configuration.slots (c : Configuration) : List (String × Option Json) :=
  [("enabled", some (.bool c.enabled)), ("level", some (.string c.level.name))]

/-- The setup of a rule is written as a record. -/
theorem Configuration.toJson_eq (c : Configuration) :
    c.toJson = .object (Members.ofSlots c.slots) := rfl

/-- The setup of a rule is read back, with the default where it was left out. -/
theorem Configuration.ofTree?_toJson (c : Configuration) :
    Configuration.ofTree? (treeOf c.toJson) = some c := by
  have hfields : (treeOf c.toJson).fields? ["enabled", "level"] =
      some (c.slots.map fun s => s.2.map treeOf) :=
    Tree.fields?_ofSlots c.toJson_eq rfl (by decide)
  simp only [slots, List.map_cons, List.map_nil, Option.map_some] at hfields
  simp only [ofTree?, hfields, Tree.required_bool, Tree.required_of_read c.level.ofTree?_name,
    Option.bind_eq_bind, Option.bind_some, Option.pure_def]

/-- It has no numbers. -/
theorem Configuration.integral_toJson (c : Configuration) : c.toJson.Integral := by
  rw [c.toJson_eq]
  refine .ofSlots ?_
  simp only [slots, List.forall_mem_cons]
  exact ⟨integral_some (.bool _), integral_some (.string _), nofun⟩

/-- The fields of a rule. -/
def Rule.slots (r : Rule) : List (String × Option Json) :=
  [("id", some (.string r.id)), ("shortDescription", r.shortDescription.map messageJson),
    ("fullDescription", r.fullDescription.map messageJson), ("helpUri", r.helpUri.map .string),
    ("defaultConfiguration", r.defaultConfiguration.map Configuration.toJson),
    ("properties", objectSlot r.properties)]

/-- A rule is written as a record, without the fields that are missing or empty. -/
theorem Rule.toJson_eq (r : Rule) : r.toJson = .object (Members.ofSlots r.slots) := by
  simp [Rule.toJson, Rule.slots, present_eq, nonemptyObject_eq, Members.ofSlots_cons,
    Members.ofSlots_nil]

/-- A rule is read back, if its free properties can be kept. -/
theorem Rule.ofTree?_toJson {depth : Nat} {r : Rule} (h : Kept depth r.properties) :
    Rule.ofTree? depth (treeOf r.toJson) = some r := by
  have hfields : (treeOf r.toJson).fields? ["id", "shortDescription", "fullDescription", "helpUri",
      "defaultConfiguration", "properties"] = some (r.slots.map fun s => s.2.map treeOf) :=
    Tree.fields?_ofSlots r.toJson_eq rfl (by decide)
  have hconfiguration : Tree.optional Configuration.ofTree?
      ((r.defaultConfiguration.map Configuration.toJson).map treeOf) =
        some r.defaultConfiguration :=
    Tree.optional_map fun c _ => ⟨nofun, c.ofTree?_toJson⟩
  simp only [slots, List.map_cons, List.map_nil, Option.map_some] at hfields
  simp only [ofTree?, hfields, Tree.required_string, optional_message, optional_text,
    hconfiguration, h.defaulted_objectSlot, Option.bind_eq_bind, Option.bind_some, Option.pure_def]

/-- The numbers in a rule are those of its free properties. -/
theorem Rule.integral_toJson {depth : Nat} {r : Rule} (h : Kept depth r.properties) :
    r.toJson.Integral := by
  rw [r.toJson_eq]
  refine .ofSlots ?_
  simp only [slots, List.forall_mem_cons]
  exact ⟨integral_some (.string _), integral_map fun _ _ => integral_messageJson _,
    integral_map fun _ _ => integral_messageJson _, integral_map fun _ _ => .string _,
    integral_map fun c _ => c.integral_toJson, h.integral_objectSlot, nofun⟩

/-! ## Places -/

/-- The numbers of the region fit words. -/
structure Region.Fits (r : Region) : Prop where
  startLine : r.startLine < wordLimit
  startColumn : r.startColumn < wordLimit
  endLine : r.endLine < wordLimit
  endColumn : r.endColumn < wordLimit

/-- The region, if there is one, fits. -/
def PhysicalLocation.Fits (l : PhysicalLocation) : Prop := ∀ r ∈ l.region, r.Fits

/-- The region, if there is one, fits. -/
def Place.Fits (p : Place) : Prop := ∀ l ∈ p.physical, l.Fits

/-- The fields of a region. -/
def Region.slots (r : Region) : List (String × Option Json) :=
  [("startLine", some (.ofNat r.startLine)), ("startColumn", some (.ofNat r.startColumn)),
    ("endLine", some (.ofNat r.endLine)), ("endColumn", some (.ofNat r.endColumn))]

/-- A region is written as a record of four numbers. -/
theorem Region.toJson_eq (r : Region) : r.toJson = .object (Members.ofSlots r.slots) := rfl

/-- A region is read back, if its numbers are words. -/
theorem Region.ofTree?_toJson {r : Region} (h : r.Fits) :
    Region.ofTree? (treeOf r.toJson) = some r := by
  have hfields : (treeOf r.toJson).fields? ["startLine", "startColumn", "endLine", "endColumn"] =
      some (r.slots.map fun s => s.2.map treeOf) :=
    Tree.fields?_ofSlots r.toJson_eq rfl (by decide)
  simp only [slots, List.map_cons, List.map_nil, Option.map_some] at hfields
  simp only [ofTree?, hfields, Tree.required_ofNat h.startLine, Tree.required_ofNat h.startColumn,
    Tree.required_ofNat h.endLine, Tree.required_ofNat h.endColumn, Option.bind_eq_bind,
    Option.bind_some, Option.pure_def]

/-- Lines and characters are integers. -/
theorem Region.integral_toJson (r : Region) : r.toJson.Integral := by
  rw [r.toJson_eq]
  refine .ofSlots ?_
  simp only [slots, List.forall_mem_cons]
  exact ⟨integral_some (.integer _), integral_some (.integer _), integral_some (.integer _),
    integral_some (.integer _), nofun⟩

/-- The address of a file in an object. -/
def uriJson (uri : String) : Json := .object [("uri", .string uri)]

/-- The address of a file is read back. -/
theorem uriOfTree?_uriJson (uri : String) : uriOfTree? (treeOf (uriJson uri)) = some uri := rfl

/-- It has no numbers. -/
theorem integral_uriJson (uri : String) : (uriJson uri).Integral :=
  .object fun _ hm => List.mem_singleton.1 hm ▸ .string uri

/-- The fields of a file with its region. -/
def PhysicalLocation.slots (l : PhysicalLocation) : List (String × Option Json) :=
  [("artifactLocation", some (uriJson l.uri)), ("region", l.region.map Region.toJson)]

/-- A file with a region is written as a record, without the region if there is none. -/
theorem PhysicalLocation.toJson_eq (l : PhysicalLocation) :
    l.toJson = .object (Members.ofSlots l.slots) := by
  simp [toJson, slots, uriJson, present_eq, Members.ofSlots_cons, Members.ofSlots_nil]

/-- A file with a region is read back, if the region fits. -/
theorem PhysicalLocation.ofTree?_toJson {l : PhysicalLocation} (h : l.Fits) :
    PhysicalLocation.ofTree? (treeOf l.toJson) = some l := by
  have hfields : (treeOf l.toJson).fields? ["artifactLocation", "region"] =
      some (l.slots.map fun s => s.2.map treeOf) :=
    Tree.fields?_ofSlots l.toJson_eq rfl (by decide)
  have hregion : Tree.optional Region.ofTree? ((l.region.map Region.toJson).map treeOf) =
      some l.region := Tree.optional_map fun r hr => ⟨nofun, Region.ofTree?_toJson (h r hr)⟩
  simp only [slots, List.map_cons, List.map_nil, Option.map_some] at hfields
  simp only [ofTree?, hfields, Tree.required_of_read (uriOfTree?_uriJson l.uri), hregion,
    Option.bind_eq_bind, Option.bind_some, Option.pure_def]

/-- Its numbers are those of the region. -/
theorem PhysicalLocation.integral_toJson (l : PhysicalLocation) : l.toJson.Integral := by
  rw [l.toJson_eq]
  refine .ofSlots ?_
  simp only [slots, List.forall_mem_cons]
  exact ⟨integral_some (integral_uriJson _), integral_map fun r _ => r.integral_toJson, nofun⟩

/-- The fields of a place that is not in a file. -/
def LogicalLocation.slots (l : LogicalLocation) : List (String × Option Json) :=
  [("decoratedName", some (.string l.decoratedName)), ("kind", some (.string l.kind))]

/-- A place that is not in a file is written as a record of two texts. -/
theorem LogicalLocation.toJson_eq (l : LogicalLocation) :
    l.toJson = .object (Members.ofSlots l.slots) := rfl

/-- A place that is not in a file is read back. -/
theorem LogicalLocation.ofTree?_toJson (l : LogicalLocation) :
    LogicalLocation.ofTree? (treeOf l.toJson) = some l := by
  have hfields : (treeOf l.toJson).fields? ["decoratedName", "kind"] =
      some (l.slots.map fun s => s.2.map treeOf) :=
    Tree.fields?_ofSlots l.toJson_eq rfl (by decide)
  simp only [slots, List.map_cons, List.map_nil, Option.map_some] at hfields
  simp only [ofTree?, hfields, Tree.required_string, Option.bind_eq_bind, Option.bind_some,
    Option.pure_def]

/-- It has no numbers. -/
theorem LogicalLocation.integral_toJson (l : LogicalLocation) : l.toJson.Integral := by
  rw [l.toJson_eq]
  refine .ofSlots ?_
  simp only [slots, List.forall_mem_cons]
  exact ⟨integral_some (.string _), integral_some (.string _), nofun⟩

/-- The fields of a place. -/
def Place.slots (p : Place) : List (String × Option Json) :=
  [("physicalLocation", p.physical.map PhysicalLocation.toJson),
    ("logicalLocations", arraySlot (p.logical.map LogicalLocation.toJson))]

/-- A place is written as a record, without the parts that are missing or empty. -/
theorem Place.toJson_eq (p : Place) : p.toJson = .object (Members.ofSlots p.slots) := by
  simp [toJson, slots, present_eq, nonemptyArray_eq, Members.ofSlots_cons, Members.ofSlots_nil]

/-- A place is read back, if the region in it fits. -/
theorem Place.ofTree?_toJson {p : Place} (h : p.Fits) :
    Place.ofTree? (treeOf p.toJson) = some p := by
  have hfields : (treeOf p.toJson).fields? ["physicalLocation", "logicalLocations"] =
      some (p.slots.map fun s => s.2.map treeOf) :=
    Tree.fields?_ofSlots p.toJson_eq rfl (by decide)
  have hphysical : Tree.optional PhysicalLocation.ofTree?
      ((p.physical.map PhysicalLocation.toJson).map treeOf) = some p.physical :=
    Tree.optional_map fun l hl => ⟨nofun, PhysicalLocation.ofTree?_toJson (h l hl)⟩
  have hlogical := defaulted_arraySlot fun l (_ : l ∈ p.logical) => l.ofTree?_toJson
  simp only [slots, List.map_cons, List.map_nil] at hfields
  simp only [ofTree?, hfields, hphysical, hlogical, Option.bind_eq_bind, Option.bind_some,
    Option.pure_def]

/-- Its numbers are those of the region. -/
theorem Place.integral_toJson (p : Place) : p.toJson.Integral := by
  rw [p.toJson_eq]
  refine .ofSlots ?_
  simp only [slots, List.forall_mem_cons]
  exact ⟨integral_map fun l _ => l.integral_toJson,
    integral_arraySlot fun l _ => l.integral_toJson, nofun⟩

/-! ## Results, runs and logs -/

/-- The index and the regions of the result fit, and its free properties can be kept. -/
structure Result.Fits (r : Result) : Prop where
  ruleIndex : r.ruleIndex < longLimit
  locations : ∀ p ∈ r.locations, p.Fits
  properties : Kept 5 r.properties

/-- The fields of a result. -/
def Result.slots (r : Result) : List (String × Option Json) :=
  [("ruleId", some (.string r.ruleId)), ("ruleIndex", some (.ofNat r.ruleIndex)),
    ("level", some (.string r.level.name)), ("message", r.message.map messageJson),
    ("locations", some (.array (r.locations.map Place.toJson))),
    ("properties", objectSlot r.properties)]

/-- A result is written as a record, without the fields that are missing or empty. -/
theorem Result.toJson_eq (r : Result) : r.toJson = .object (Members.ofSlots r.slots) := by
  simp [toJson, slots, present_eq, nonemptyObject_eq, Members.ofSlots_cons, Members.ofSlots_nil]

/-- A result is read back, if its index and regions fit and its free properties can be kept. -/
theorem Result.ofTree?_toJson {r : Result} (h : r.Fits) :
    Result.ofTree? 5 (treeOf r.toJson) = some r := by
  have hfields : (treeOf r.toJson).fields? ["ruleId", "ruleIndex", "level", "message", "locations",
      "properties"] = some (r.slots.map fun s => s.2.map treeOf) :=
    Tree.fields?_ofSlots r.toJson_eq rfl (by decide)
  have hlocations := Tree.required_of_read <|
    Tree.list?_map fun p hp => Place.ofTree?_toJson (h.locations p hp)
  simp only [slots, List.map_cons, List.map_nil, Option.map_some] at hfields
  simp only [ofTree?, hfields, Tree.required_string, Tree.required_ofNat h.ruleIndex,
    Tree.required_of_read r.level.ofTree?_name, optional_message, hlocations,
    h.properties.defaulted_objectSlot, Option.bind_eq_bind, Option.bind_some, Option.pure_def]

/-- Its numbers are the index, those of the regions and those of the free properties. -/
theorem Result.integral_toJson {r : Result} (h : r.Fits) : r.toJson.Integral := by
  rw [r.toJson_eq]
  refine .ofSlots ?_
  simp only [slots, List.forall_mem_cons]
  exact ⟨integral_some (.string _), integral_some (.integer _), integral_some (.string _),
    integral_map fun _ _ => integral_messageJson _,
    integral_some (.array_map fun p _ => p.integral_toJson), h.properties.integral_objectSlot, nofun⟩

/-- The free properties of the rules of the tool can be kept. -/
def Tool.Fits (t : Tool) : Prop := ∀ r ∈ t.rules, Kept 7 r.properties

/-- The fields of the description of a tool. -/
def Tool.slots (t : Tool) : List (String × Option Json) :=
  [("name", some (.string t.name)), ("version", some (.string t.version)),
    ("rules", arraySlot (t.rules.map Rule.toJson))]

/-- A tool is written as its description inside an object of its own. -/
theorem Tool.toJson_eq (t : Tool) :
    t.toJson = .object [("driver", .object (Members.ofSlots t.slots))] := by
  simp [toJson, slots, nonemptyArray_eq, Members.ofSlots_cons, Members.ofSlots_nil]

/-- The description of a tool is read back with all of its rules. -/
theorem driverOfTree?_ofSlots {t : Tool} (h : t.Fits) :
    driverOfTree? (treeOf (.object (Members.ofSlots t.slots))) = some t := by
  have hfields : (treeOf (.object (Members.ofSlots t.slots))).fields? ["name", "version", "rules"] =
      some (t.slots.map fun s => s.2.map treeOf) :=
    Tree.fields?_ofSlots rfl rfl (by decide)
  have hrules := defaulted_arraySlot fun r hr => Rule.ofTree?_toJson (h r hr)
  simp only [Tool.slots, List.map_cons, List.map_nil, Option.map_some] at hfields
  simp only [driverOfTree?, Tool.slots, hfields, Tree.required_string, hrules, Option.bind_eq_bind,
    Option.bind_some, Option.pure_def]

/-- A tool is read back, if the free properties of its rules can be kept. -/
theorem Tool.ofTree?_toJson {t : Tool} (h : t.Fits) : Tool.ofTree? (treeOf t.toJson) = some t := by
  rw [t.toJson_eq]
  exact driverOfTree?_ofSlots h

/-- Its numbers are those of the rules. -/
theorem Tool.integral_toJson {t : Tool} (h : t.Fits) : t.toJson.Integral := by
  rw [t.toJson_eq]
  refine .object fun m hm => ?_
  obtain rfl := List.mem_singleton.1 hm
  refine .ofSlots ?_
  simp only [slots, List.forall_mem_cons]
  exact ⟨integral_some (.string _), integral_some (.string _),
    integral_arraySlot fun r hr => Rule.integral_toJson (h r hr), nofun⟩

/-- The tool and all results fit. -/
structure Run.Fits (r : Run) : Prop where
  tool : r.tool.Fits
  results : ∀ result ∈ r.results, result.Fits

/-- The fields of a run. -/
def Run.slots (r : Run) : List (String × Option Json) :=
  [("tool", some r.tool.toJson), ("results", some (.array (r.results.map Result.toJson)))]

/-- A run is written as a record of its tool and its results. -/
theorem Run.toJson_eq (r : Run) : r.toJson = .object (Members.ofSlots r.slots) := rfl

/-- A run is read back, if the tool and all results fit. -/
theorem Run.ofTree?_toJson {r : Run} (h : r.Fits) : Run.ofTree? (treeOf r.toJson) = some r := by
  have hfields : (treeOf r.toJson).fields? ["tool", "results"] =
      some (r.slots.map fun s => s.2.map treeOf) :=
    Tree.fields?_ofSlots r.toJson_eq rfl (by decide)
  have hresults := Tree.required_of_read <|
    Tree.list?_map fun result hr => Result.ofTree?_toJson (h.results result hr)
  simp only [slots, List.map_cons, List.map_nil, Option.map_some] at hfields
  simp only [ofTree?, hfields, Tree.required_of_read (Tool.ofTree?_toJson h.tool), hresults,
    Option.bind_eq_bind, Option.bind_some, Option.pure_def]

/-- Its numbers are those of the tool and of the results. -/
theorem Run.integral_toJson {r : Run} (h : r.Fits) : r.toJson.Integral := by
  rw [r.toJson_eq]
  refine .ofSlots ?_
  simp only [slots, List.forall_mem_cons]
  exact ⟨integral_some (Tool.integral_toJson h.tool),
    integral_some (.array_map fun result hr => Result.integral_toJson (h.results result hr)), nofun⟩

/-- All runs of the log fit: its numbers fit the words that they are read into, and its free
properties can be kept. -/
def Log.Fits (l : Log) : Prop := ∀ run ∈ l.runs, run.Fits

/-- The fields of a log. -/
def Log.slots (l : Log) : List (String × Option Json) :=
  [("$schema", some (.string l.schema)), ("version", some (.string l.version)),
    ("runs", some (.array (l.runs.map Run.toJson)))]

/-- A log is written as a record of the schema, the version and the runs. -/
theorem Log.toJson_eq (l : Log) : l.toJson = .object (Members.ofSlots l.slots) := rfl

/-- A log is read back, if all of its runs fit. -/
theorem Log.ofTree?_toJson {l : Log} (h : l.Fits) : Log.ofTree? (treeOf l.toJson) = some l := by
  have hfields : (treeOf l.toJson).fields? ["$schema", "version", "runs"] =
      some (l.slots.map fun s => s.2.map treeOf) :=
    Tree.fields?_ofSlots l.toJson_eq rfl (by decide)
  have hruns := Tree.required_of_read <| Tree.list?_map fun run hr => Run.ofTree?_toJson (h run hr)
  simp only [slots, List.map_cons, List.map_nil, Option.map_some] at hfields
  simp only [ofTree?, hfields, Tree.required_string, hruns, Option.bind_eq_bind, Option.bind_some,
    Option.pure_def]

/-- Its numbers are those of the runs. -/
theorem Log.integral_toJson {l : Log} (h : l.Fits) : l.toJson.Integral := by
  rw [l.toJson_eq]
  refine .ofSlots ?_
  simp only [slots, List.forall_mem_cons]
  exact ⟨integral_some (.string _), integral_some (.string _),
    integral_some (.array_map fun run hr => Run.integral_toJson (h run hr)), nofun⟩

/-- The text of a log that fits, in either layout, is read as this log. -/
theorem Log.parse_render {l : Log} (h : l.Fits) (layout : Layout) :
    Log.parse (l.render layout) = some l := by
  rw [Log.parse, Log.render, Tree.parse_render (Log.integral_toJson h), Option.bind_some,
    Log.ofTree?_toJson h]

end Retrace.Sarif
