import Retrace.RuleSet.Action
import Retrace.Table

/-!
# Rule sets

A rule set has an action for each of some rules and a general action for the others. Rule sets are
merged in order, later ones overriding earlier ones, and applied to diagnostics: the general action
reaches warnings only.
-/

namespace Retrace

/-- Actions for rules. -/
structure RuleSet where
  /-- The action for rules without one of their own. -/
  general : RuleAction := .unchanged
  /-- The actions of rules by their identifiers. -/
  specific : Table String RuleAction := {}

namespace RuleSet

/-- One rule set on top of another: its general action, and its specific ones over those below. -/
def overlay (below above : RuleSet) : RuleSet :=
  { general := above.general
    specific :=
      above.specific.entries.foldl (fun t (id, action) => t.insert id action) below.specific }

/-- Rule sets on top of each other, the last one uppermost. -/
def merge (ruleSets : List RuleSet) : RuleSet := ruleSets.foldl overlay {}

/-- The action for a rule. -/
def effectiveAction (r : RuleSet) (id : String) : RuleAction := (r.specific.get? id).getD r.general

/-- Whether the action for a rule drops its diagnostics. -/
def isSuppressed (r : RuleSet) (id : String) : Bool := r.effectiveAction id == .suppress

/-- The action applied to a diagnostic. -/
def actionFor (r : RuleSet) (d : Diagnostic) : RuleAction :=
  match r.specific.get? d.id with
  | some action => action
  | none => if d.severity = .warning then r.general else .unchanged

/-- The diagnostic with the severity that the rule set gives it, unless it is dropped. -/
def apply (r : RuleSet) (d : Diagnostic) : Option Diagnostic :=
  match r.actionFor d with
  | .suppress => none
  | action => some { d with severity := action.severity?.getD d.severity }

end RuleSet

end Retrace
