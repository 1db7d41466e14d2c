import Retrace.Report.Registry
import Retrace.Sarif.Write
import Retrace.Session.Resolve

/-!
# Reports

The diagnostics of a session as a SARIF log. A diagnostic with a place is reported there; one
without is reported for the binary as a whole, with its reconstructed location as a logical one.
Diagnostics without a rule descriptor are not reported. `write` puts the log into a file.
-/

namespace Retrace.Report

variable {ν : Type}

/-- The name under which results are reported. -/
def toolName : String := "peeker"

/-- The version under which results are reported. -/
def toolVersion : String := "0.1.0"

/-- The address of the format's schema. -/
def schema : String := "https://json.schemastore.org/sarif-2.1.0.json"

/-- The version of the format. -/
def formatVersion : String := "2.1.0"

/-- A region from a span. -/
def region (span : LineSpan) : Sarif.Region :=
  ⟨span.start.line, span.start.character, span.stop.line, span.stop.character⟩

/-- The place of a diagnostic in a report, given the answer of the session. -/
def place (fileName : Path) (location : Location) : Option ResolvedLocation → Sarif.Place
  | some found => ⟨some ⟨found.path, some (region found.span)⟩, []⟩
  | none => ⟨some ⟨fileName.text, none⟩, [⟨location.render, "module"⟩]⟩

/-- The free properties of a result. -/
def properties (d : Diagnostic) : Json.Members :=
  Json.Members.ofList (
    (if 0 < d.warningLevel then [("warningLevel", .ofNat d.warningLevel)] else []) ++
    (if d.properties.isEmpty then []
      else [("customProperties",
        .object (Json.Members.ofList (d.properties.map fun (k, v) => (k, .string v))))]))

/-- The result for a diagnostic, given its rule and its place. -/
def result (d : Diagnostic) (ruleId : String) (ruleIndex : Nat) (found : Sarif.Place) :
    Sarif.Result where
  ruleId
  ruleIndex
  level := d.severity.level
  message := if d.message.isEmpty then none else some d.message
  locations := [found]
  properties := properties d

/-- The results for diagnostics, with the rules they refer to and the session behind them. -/
def results (registry : RuleRegistry) (s : Session ν) :
    List Diagnostic → List Sarif.Result × RuleRegistry × Session ν
  | [] => ([], registry, s)
  | d :: rest =>
    match d.descriptor with
    | none =>
      results registry
        (s.note [⟨.error, s!"Diagnostic {d.id} has no rule descriptor and is not reported"⟩]) rest
    | some rule =>
      let ((index, entered), registry) := registry.register rule
      let (found, s) := s.resolve d
      let first := result d entered.id index (place s.fileName d.location found)
      let (others, registry, s) := results registry s rest
      (first :: others, registry, s)

/-- The log that reports results of rules. -/
def logOf (rules : List Sarif.Rule) (results : List Sarif.Result) : Sarif.Log where
  schema := schema
  version := formatVersion
  runs := [{ tool := { name := toolName, version := toolVersion, rules }, results }]

/-- The report of a session on diagnostics. -/
def process (s : Session ν) (ds : List Diagnostic) : Sarif.Log × Session ν :=
  let (found, registry, s) := results {} s ds
  (logOf registry.rules found, s)

/-- Writes a report to a file. -/
def write {σ : Type} (disk : Storage σ) (layout : Json.Layout) (log : Sarif.Log) (path : Path)
    (files : σ) : Except Error Unit × σ :=
  match disk.writeText path (log.render layout) files with
  | (.error e, files) => (.error (.file e), files)
  | (.ok (), files) => (.ok (), files)

end Retrace.Report
