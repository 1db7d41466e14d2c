import Retrace.Proofs.RuleSet.Merged

/-!
# Suppressed rules

That a rule is suppressed is meant to say that its diagnostics are not reported. It is told by the
identifier alone (`isSuppressed`), whereas a diagnostic is dropped by its severity too (`apply`). The two
agree if some rule set mentions the rule, or if the diagnostic is a warning. They disagree about an
error of a rule that nobody mentions, under a general action to suppress: its rule is suppressed, and
it is reported all the same (`not_forall_isSuppressed_iff`).

`isSuppressed_iff_dropped` says exactly when they agree, and what happens to the other diagnostics.
-/

namespace Retrace.RuleSet

variable {r : RuleSet} {rs : List RuleSet} {id : String} {d : Diagnostic}

/-- Some rule set has an action for the rule. -/
def Mentioned (rs : List RuleSet) (id : String) : Prop := ∃ r ∈ rs, r.specific.get? id ≠ none

/-- A rule that is not mentioned has no action in any of the rule sets. -/
theorem not_mentioned_iff : ¬ Mentioned rs id ↔ ∀ r ∈ rs, r.specific.get? id = none := by
  simp only [Mentioned, ne_eq, not_exists, not_and, not_not]

/-- A merged rule set has an action for the rules that any of the rule sets mentions, and for no
others. -/
theorem get?_merge_eq_none_iff : (merge rs).specific.get? id = none ↔ ¬ Mentioned rs id := by
  rw [not_mentioned_iff]
  induction rs using List.reverseRecOn with
  | nil => exact iff_of_true rfl fun r hr => absurd hr List.not_mem_nil
  | append_singleton rs r ih =>
    rw [merge_concat, overlay, Table.get?_foldl_insert_eq_none_iff, ih, List.forall_mem_append,
      List.forall_mem_singleton]
    exact and_comm

/-- A merged rule set has an action for exactly the rules that are mentioned. -/
theorem get?_merge_ne_none_iff : (merge rs).specific.get? id ≠ none ↔ Mentioned rs id :=
  not_iff_comm.1 get?_merge_eq_none_iff.symm

/-! ## One rule set -/

/-- A rule is suppressed if the action for it, or else the general one, is to suppress. -/
theorem isSuppressed_iff : r.isSuppressed id = true ↔ r.effectiveAction id = .suppress := by
  rw [isSuppressed, beq_iff_eq]

/-- The action for the rule reaches its warnings, and all its diagnostics if the rule is mentioned. -/
theorem actionFor_of_reached (h : d.severity = .warning ∨ r.specific.get? d.id ≠ none) :
    r.actionFor d = r.effectiveAction d.id := by
  rw [actionFor, effectiveAction]
  cases hspecific : r.specific.get? d.id with
  | some action => rfl
  | none =>
    have hwarning : d.severity = .warning := h.resolve_right fun hne => hne hspecific
    exact if_pos hwarning

/-- The general action is not for diagnostics other than warnings. -/
theorem actionFor_of_not_reached (hother : d.severity ≠ .warning)
    (hnone : r.specific.get? d.id = none) : r.actionFor d = .unchanged := by
  rw [actionFor, hnone]
  exact if_neg hother

/-- Where the action for the rule reaches the diagnostic, it is dropped if and only if the rule is
suppressed. -/
theorem isSuppressed_iff_apply_eq_none (h : d.severity = .warning ∨ r.specific.get? d.id ≠ none) :
    r.isSuppressed d.id = true ↔ r.apply d = none := by
  rw [isSuppressed_iff, apply_eq_none_iff, actionFor_of_reached h]

/-- Beyond the reach of the general action, a rule is suppressed if that is the general action. -/
theorem isSuppressed_of_not_mentioned (hnone : r.specific.get? id = none) :
    r.isSuppressed id = true ↔ r.general = .suppress := by
  rw [isSuppressed_iff, effectiveAction, hnone, Option.getD_none]

/-- A diagnostic that neither action reaches is kept as it is. -/
theorem apply_of_not_reached (hother : d.severity ≠ .warning) (hnone : r.specific.get? d.id = none) :
    r.apply d = some d := by
  rw [apply_eq_some_iff]
  exact ⟨.unchanged, actionFor_of_not_reached hother hnone, by decide, rfl⟩

/-! ## Merged rule sets -/

/-- The general action of merged rule sets can be told from the last one of them. -/
theorem general_merge_ne_iff {action : RuleAction} (h : action ≠ .unchanged) :
    (merge rs).general ≠ action ↔ ∀ r ∈ rs.getLast?, r.general ≠ action := by
  rw [general_merge]
  cases rs.getLast? with
  | none => simpa using h.symm
  | some r => simp

/-- A diagnostic is dropped exactly if its rule is suppressed, under one of three conditions: it is a
warning, some rule set mentions its rule, or the last rule set does not suppress in general; and under
no other. A diagnostic for which neither of the first two holds is kept as it is, since the general
action is not for it. A suppressed rule is dropped in every severity exactly if some rule set mentions
it. -/
theorem isSuppressed_iff_dropped (rs : List RuleSet) (d : Diagnostic) :
    (((merge rs).isSuppressed d.id = true ↔ (merge rs).apply d = none) ↔
      d.severity = .warning ∨ Mentioned rs d.id ∨ ∀ r ∈ rs.getLast?, r.general ≠ .suppress) ∧
    (¬ (d.severity = .warning ∨ Mentioned rs d.id) → (merge rs).apply d = some d) ∧
    ((∀ severity, (merge rs).apply { d with severity } = none) ↔
      (merge rs).isSuppressed d.id = true ∧ Mentioned rs d.id) := by
  rw [← get?_merge_ne_none_iff, ← general_merge_ne_iff (by decide), ← or_assoc]
  have hunreached : ¬ (d.severity = .warning ∨ (merge rs).specific.get? d.id ≠ none) →
      (merge rs).apply d = some d := by
    intro h
    obtain ⟨hother, hnone⟩ := not_or.1 h
    exact apply_of_not_reached hother (not_not.1 hnone)
  refine ⟨?_, hunreached, ?_⟩
  · by_cases hreached : d.severity = .warning ∨ (merge rs).specific.get? d.id ≠ none
    · exact iff_of_true (isSuppressed_iff_apply_eq_none hreached) (Or.inl hreached)
    · have hnone : (merge rs).specific.get? d.id = none := not_not.1 (not_or.1 hreached).2
      rw [or_iff_right hreached, isSuppressed_of_not_mentioned hnone, hunreached hreached]
      simp
  · constructor
    · intro hdropped
      have hmentioned : (merge rs).specific.get? d.id ≠ none := by
        intro hnone
        -- an error of a rule that nobody mentions is kept
        have hother : { d with severity := .error }.severity ≠ .warning := Severity.noConfusion
        cases (hdropped .error).symm.trans (apply_of_not_reached hother hnone)
      exact ⟨(isSuppressed_iff_apply_eq_none (Or.inr hmentioned)).2 (hdropped d.severity), hmentioned⟩
    · rintro ⟨hsuppressed, hmentioned⟩ severity
      let d' : Diagnostic := { d with severity }
      have hreached : d'.severity = .warning ∨ (merge rs).specific.get? d'.id ≠ none :=
        Or.inr hmentioned
      exact (isSuppressed_iff_apply_eq_none hreached).1 hsuppressed

/-- A rule set that drops warnings and mentions no rule. -/
def quiet : RuleSet := { general := .suppress }

/-- A rule may be suppressed and its errors reported all the same. -/
theorem not_forall_isSuppressed_iff : ¬ ∀ (rs : List RuleSet) (d : Diagnostic),
    (merge rs).isSuppressed d.id = true ↔ (merge rs).apply d = none := by
  intro h
  let d : Diagnostic := { warningOf "CA1" with severity := .error }
  have hsuppressed : (merge [quiet]).isSuppressed d.id = true := rfl
  have hkept : (merge [quiet]).apply d = some d := rfl
  cases ((h [quiet] d).1 hsuppressed).symm.trans hkept

end Retrace.RuleSet
