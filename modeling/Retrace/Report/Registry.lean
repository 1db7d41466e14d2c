import Retrace.Diagnostic
import Retrace.Sarif.Log
import Retrace.Table
import Retrace.Text.Blank

/-!
# Rules of a report

The rules that the results of a report refer to by index. A rule enters the registry when it is
first referred to; what later descriptors of the same rule say does not count.
-/

namespace Retrace

/-- How results of a severity are to be taken. -/
def Severity.level : Severity → Sarif.Level
  | .hidden => .warning
  | .info => .note
  | .warning => .warning
  | .error => .error

/-- The free properties of a rule. -/
def RuleDescriptor.properties (d : RuleDescriptor) : Json.Members :=
  Json.Members.ofList (
    (if d.category.isEmpty then [] else [("category", .string d.category)]) ++
    (if d.tags.isEmpty then [] else [("tags", .array (d.tags.map .string))]))

/-- The setup of a rule, left out for an enabled warning, which is the default. -/
def RuleDescriptor.configuration (d : RuleDescriptor) : Option Sarif.Configuration :=
  if d.defaultSeverity.level = .warning ∧ d.enabledByDefault then none
  else some ⟨d.enabledByDefault, d.defaultSeverity.level⟩

/-- A rule as reports describe it. Blank texts are left out. -/
def RuleDescriptor.toRule (d : RuleDescriptor) : Sarif.Rule where
  id := d.id
  shortDescription := Text.nonBlank d.title
  fullDescription := Text.nonBlank d.description
  helpUri := d.helpUri.bind Text.nonBlank
  defaultConfiguration := d.configuration
  properties := d.properties

/-- The rules of a report and their indices by identifier. -/
structure RuleRegistry where
  rules : List Sarif.Rule := []
  indices : Table String Nat := {}

namespace RuleRegistry

/-- The index of a rule and what stands there, which is the rule itself if it is new. The table holds
no index without a rule. -/
def register (r : RuleRegistry) (d : RuleDescriptor) : (Nat × Sarif.Rule) × RuleRegistry :=
  match r.indices.get? d.id with
  | some index => ((index, r.rules[index]?.getD d.toRule), r)
  | none =>
    ((r.rules.length, d.toRule),
      { rules := r.rules ++ [d.toRule], indices := r.indices.insert d.id r.rules.length })

/-- The index of a rule that may lack a descriptor; one without is not entered. -/
def register? (r : RuleRegistry) : Option RuleDescriptor → Option Nat × RuleRegistry
  | none => (none, r)
  | some d =>
    let ((index, _), r) := r.register d
    (some index, r)

end RuleRegistry

end Retrace
