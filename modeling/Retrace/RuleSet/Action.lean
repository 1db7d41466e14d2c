import Retrace.Diagnostic

/-!
# Actions of rule sets

What a rule set does with the diagnostics of a rule.
-/

namespace Retrace

/-- What is done with the diagnostics of a rule. -/
inductive RuleAction
  /-- They keep their severity. -/
  | unchanged
  /-- They are given a severity. -/
  | error | warn | info | hidden
  /-- They are dropped. -/
  | suppress
deriving DecidableEq

namespace RuleAction

/-- The action that a rule set names, in any case of its ASCII letters. -/
def ofName? (name : String) : Option RuleAction :=
  match name.toLower with
  | "default" => some unchanged
  | "error" => some error
  | "warning" => some warn
  | "info" => some info
  | "hidden" => some hidden
  | "none" => some suppress
  | _ => none

/-- The severity that the action assigns, if any. -/
def severity? : RuleAction → Option Severity
  | unchanged => none
  | error => some .error
  | warn => some .warning
  | info => some .info
  | hidden => some .hidden
  | suppress => none

end RuleAction

end Retrace
