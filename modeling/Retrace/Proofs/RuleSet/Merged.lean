import Retrace.Proofs.Table
import Retrace.RuleSet.Document
import Mathlib.Data.List.Forall2
import Mathlib.Data.List.Induction

/-!
# Merged rule sets

In a list of rule sets the last one that mentions a rule decides on its diagnostics, and the last one
of all decides on warnings whose rule none of them mentions (`Decides`). `merge_decides` says that the
merged rule set does exactly this, whatever the order in which the rules of each rule set are listed,
and that it may as well be merged in parts.

A rule set lists no rule twice (`IsFunctional`), as is the case with every one that is read from a
document (`isFunctional_of_parse`). Otherwise its own action for a rule would be that of the first
entry, and the one that it passes on would be that of the last.
-/

namespace Retrace.RuleSet

variable {r r' r'' below above : RuleSet} {rs rs' : List RuleSet} {id : String}
  {d d' : Diagnostic} {action : RuleAction}

/-- No rule is listed twice. -/
def IsFunctional (r : RuleSet) : Prop := r.specific.keys.Nodup

instance (r : RuleSet) : Decidable r.IsFunctional :=
  inferInstanceAs (Decidable r.specific.keys.Nodup)

/-! ## Rule sets of documents -/

/-- If two computations succeed one after the other, each of them does. -/
theorem exists_of_bind_eq_ok {ε α β : Type} {x : Except ε α} {f : α → Except ε β} {b : β}
    (h : x >>= f = .ok b) : ∃ a, x = .ok a ∧ f a = .ok b := by
  cases x with
  | error e => cases h
  | ok a => exact ⟨a, rfl, h⟩

/-- An element lists no rule twice: it replaces the action of one that is there. -/
theorem isFunctional_of_element {draft draft' : Draft} {tag : Markup.Tag}
    (h : draft.ruleSet.IsFunctional) (helement : element draft tag = .ok draft') :
    draft'.ruleSet.IsFunctional := by
  unfold element at helement
  split at helement
  · cases helement
    exact h
  · split at helement
    · obtain ⟨name, -, helement⟩ := exists_of_bind_eq_ok helement
      obtain ⟨general, -, helement⟩ := exists_of_bind_eq_ok helement
      cases helement
      exact h
    · cases helement
      exact h
  · split at helement
    · obtain ⟨id, -, helement⟩ := exists_of_bind_eq_ok helement
      obtain ⟨name, -, helement⟩ := exists_of_bind_eq_ok helement
      obtain ⟨chosen, -, helement⟩ := exists_of_bind_eq_ok helement
      cases helement
      exact Table.nodup_keys_insert h id chosen
    · cases helement
      exact h
  · cases helement
    exact h

/-- An event lists no rule twice. -/
theorem isFunctional_of_event {draft draft' : Draft} {e : Markup.Event}
    (h : draft.ruleSet.IsFunctional) (hevent : event draft e = .ok draft') :
    draft'.ruleSet.IsFunctional := by
  cases e with
  | start tag => exact isFunctional_of_element h hevent
  | empty tag => exact isFunctional_of_element h hevent
  | stop _ =>
    cases hevent
    exact h

/-- Events one after the other list no rule twice. -/
theorem isFunctional_of_events {draft draft' : Draft} {events : List Markup.Event}
    (h : draft.ruleSet.IsFunctional) (hevents : events.foldlM event draft = .ok draft') :
    draft'.ruleSet.IsFunctional := by
  induction events generalizing draft with
  | nil =>
    cases hevents
    exact h
  | cons e rest ih =>
    rw [List.foldlM_cons] at hevents
    obtain ⟨next, hevent, hrest⟩ := exists_of_bind_eq_ok hevents
    exact ih (isFunctional_of_event h hevent) hrest

/-- A rule set that is read from a text lists no rule twice: a later element for a rule replaces an
earlier one. -/
theorem isFunctional_of_parse {text : String} (h : parse text = .ok r) : r.IsFunctional := by
  unfold parse parseReading at h
  split at h
  · cases h
  · obtain ⟨draft, hevents, h⟩ := exists_of_bind_eq_ok h
    split at h
    · cases h
    · split at h
      · cases h
        have hempty : ({} : Draft).ruleSet.IsFunctional := List.nodup_nil
        exact isFunctional_of_events hempty hevents
      · cases h

/-! ## What is in a merged rule set -/

/-- The last rule set is laid over all others. -/
theorem merge_concat (rs : List RuleSet) (r : RuleSet) :
    merge (rs ++ [r]) = overlay (merge rs) r := by
  rw [merge, List.foldl_append]
  rfl

/-- The upper one of two rule sets decides on the rules that it mentions. -/
theorem get?_overlay (h : above.IsFunctional) (below : RuleSet) (id : String) :
    (overlay below above).specific.get? id =
      (above.specific.get? id).or (below.specific.get? id) :=
  Table.get?_foldl_insert h below.specific id

/-- The general action is that of the last rule set. -/
theorem general_merge (rs : List RuleSet) :
    (merge rs).general = (rs.getLast?.map (·.general)).getD .unchanged := by
  induction rs using List.reverseRecOn with
  | nil => rfl
  | append_singleton rs r _ =>
    rw [merge_concat, List.getLast?_concat]
    rfl

/-- The action for a rule is that of the last rule set that mentions it. -/
theorem get?_merge (h : ∀ r ∈ rs, r.IsFunctional) (id : String) :
    (merge rs).specific.get? id = (rs.filterMap fun r => r.specific.get? id).getLast? := by
  induction rs using List.reverseRecOn with
  | nil => rfl
  | append_singleton rs r ih =>
    obtain ⟨hrs, hr⟩ := List.forall_mem_append.1 h
    rw [merge_concat, get?_overlay (hr r (List.mem_singleton_self r)), ih hrs,
      List.filterMap_append, List.getLast?_append]
    cases hid : r.specific.get? id with
    | none => simp [hid]
    | some action => simp [hid]

/-- The merged rule set lists no rule twice, whatever the others do. -/
theorem isFunctional_merge (rs : List RuleSet) : (merge rs).IsFunctional := by
  induction rs using List.reverseRecOn with
  | nil => exact List.nodup_nil
  | append_singleton rs r ih =>
    rw [merge_concat]
    exact Table.nodup_keys_foldl_insert ih r.specific.entries

/-! ## What it does with a diagnostic -/

/-- The action of a list of rule sets for a diagnostic: that of the last one that mentions its rule. If
none does, it is the general action of the last one for a warning, and nothing happens to any other
diagnostic. -/
inductive Decides (rs : List RuleSet) (d : Diagnostic) : RuleAction → Prop
  | mention {front behind : List RuleSet} {r : RuleSet} {action : RuleAction}
    (split : rs = front ++ r :: behind) (mentioned : r.specific.get? d.id = some action)
    (last : ∀ r' ∈ behind, r'.specific.get? d.id = none) : Decides rs d action
  | general {front : List RuleSet} {r : RuleSet} (split : rs = front ++ [r])
    (unmentioned : ∀ r' ∈ rs, r'.specific.get? d.id = none) (warning : d.severity = .warning) :
    Decides rs d r.general
  | untouched (unmentioned : ∀ r' ∈ rs, r'.specific.get? d.id = none)
    (other : d.severity ≠ .warning ∨ rs = []) : Decides rs d .unchanged

/-- There always is such an action. -/
theorem exists_decides (rs : List RuleSet) (d : Diagnostic) : ∃ action, Decides rs d action := by
  induction rs using List.reverseRecOn with
  | nil => exact ⟨_, .untouched (fun _ hr' => absurd hr' List.not_mem_nil) (Or.inr rfl)⟩
  | append_singleton rs r ih =>
    cases hr : r.specific.get? d.id with
    | some action => exact ⟨action, .mention rfl hr fun _ hr' => absurd hr' List.not_mem_nil⟩
    | none =>
      have hlast : ∀ r' ∈ [r], r'.specific.get? d.id = none :=
        List.forall_mem_singleton.2 hr
      obtain ⟨action, hdecides⟩ := ih
      by_cases hmentioned : ∀ r' ∈ rs, r'.specific.get? d.id = none
      · have hnone : ∀ r' ∈ rs ++ [r], r'.specific.get? d.id = none :=
          List.forall_mem_append.2 ⟨hmentioned, hlast⟩
        by_cases hwarning : d.severity = .warning
        · exact ⟨_, .general rfl hnone hwarning⟩
        · exact ⟨_, .untouched hnone (Or.inl hwarning)⟩
      · -- the last rule set that mentions the rule is still the last one
        cases hdecides with
        | @mention front behind r₀ _ split mentioned last =>
          have hsplit : rs ++ [r] = front ++ r₀ :: (behind ++ [r]) := by
            rw [split, List.append_assoc, List.cons_append]
          exact ⟨action, .mention hsplit mentioned (List.forall_mem_append.2 ⟨last, hlast⟩)⟩
        | general _ unmentioned _ => exact absurd unmentioned hmentioned
        | untouched unmentioned _ => exact absurd unmentioned hmentioned

/-- The merged rule set takes this action. -/
theorem Decides.actionFor_merge (hrs : ∀ r ∈ rs, r.IsFunctional) (h : Decides rs d action) :
    (merge rs).actionFor d = action := by
  rw [actionFor, get?_merge hrs, general_merge]
  cases h with
  | mention split mentioned last =>
    rw [split, List.filterMap_append,
      List.filterMap_cons_some (f := fun r : RuleSet => r.specific.get? d.id) mentioned,
      List.filterMap_eq_nil_iff.2 last, List.getLast?_concat]
  | general split unmentioned warning =>
    rw [List.filterMap_eq_nil_iff.2 unmentioned, split, List.getLast?_concat]
    exact if_pos warning
  | untouched unmentioned other =>
    rw [List.filterMap_eq_nil_iff.2 unmentioned]
    rcases other with hother | rfl
    · exact if_neg hother
    · exact ite_self _

/-- The action that a merged rule set takes is the one that the list decides on. -/
theorem decides_iff (hrs : ∀ r ∈ rs, r.IsFunctional) :
    Decides rs d action ↔ (merge rs).actionFor d = action := by
  constructor
  · exact Decides.actionFor_merge hrs
  · rintro rfl
    obtain ⟨action, hdecides⟩ := exists_decides rs d
    rwa [hdecides.actionFor_merge hrs]

/-- A diagnostic is dropped by the action to suppress it. Any other action changes nothing but the
severity, and that only if it assigns one. -/
theorem apply_eq_some_iff : r.apply d = some d' ↔ ∃ action, r.actionFor d = action ∧
    action ≠ .suppress ∧ d' = { d with severity := action.severity?.getD d.severity } := by
  unfold apply
  cases haction : r.actionFor d <;> simp [eq_comm]

/-- A diagnostic is dropped if and only if the action for it says so. -/
theorem apply_eq_none_iff : r.apply d = none ↔ r.actionFor d = .suppress := by
  unfold apply
  cases haction : r.actionFor d <;> simp

/-- With the severity that an action gives it, a diagnostic has the same action again, or none. -/
theorem actionFor_severity (r : RuleSet) (d : Diagnostic) :
    let d' := { d with severity := (r.actionFor d).severity?.getD d.severity }
    r.actionFor d' = r.actionFor d ∨ r.actionFor d' = .unchanged := by
  intro d'
  have hid : d'.id = d.id := rfl
  rw [actionFor, hid]
  cases hspecific : r.specific.get? d.id with
  | some action =>
    left
    rw [actionFor, hspecific]
  | none =>
    by_cases hwarning : d'.severity = .warning
    · -- a general action that keeps a warning a warning was the action before
      left
      have hbefore : d.severity = .warning := by
        by_contra hother
        have hunchanged : r.actionFor d = .unchanged := by
          rw [actionFor, hspecific]
          exact if_neg hother
        refine hother ?_
        calc d.severity = (r.actionFor d).severity?.getD d.severity := by rw [hunchanged]; rfl
          _ = .warning := hwarning
      rw [actionFor, hspecific]
      exact (if_pos hwarning).trans (if_pos hbefore).symm
    · right
      exact if_neg hwarning

/-- Applying a rule set once more changes nothing. -/
theorem apply_of_apply (h : r.apply d = some d') : r.apply d' = some d' := by
  obtain ⟨action, rfl, hkept, rfl⟩ := apply_eq_some_iff.1 h
  rw [apply_eq_some_iff]
  rcases r.actionFor_severity d with hagain | hnone
  · refine ⟨_, hagain, hkept, ?_⟩
    cases (r.actionFor d).severity? with
    | none => rfl
    | some severity => rfl
  · exact ⟨_, hnone, by decide, rfl⟩

/-! ## Order of the rules, and merging in parts -/

/-- The rule sets are equal as finite maps. -/
def Agree (r r' : RuleSet) : Prop :=
  r.general = r'.general ∧ ∀ id, r.specific.get? id = r'.specific.get? id

/-- Rule sets that are equal as maps do the same to every diagnostic. -/
theorem Agree.apply_eq (h : Agree r r') (d : Diagnostic) : r.apply d = r'.apply d := by
  have haction : r.actionFor d = r'.actionFor d := by rw [actionFor, actionFor, h.1, h.2]
  rw [apply, apply, haction]

/-- The rule sets have the same rules, listed in any order. -/
def Reordered (r r' : RuleSet) : Prop :=
  r.general = r'.general ∧ r.specific.entries.Perm r'.specific.entries

/-- Another order of the rules lists none twice. -/
theorem Reordered.isFunctional (h : Reordered r r') (hr : r.IsFunctional) : r'.IsFunctional :=
  (h.2.map Prod.fst).nodup_iff.1 hr

/-- If no rule is listed twice, the order of the rules does not matter. -/
theorem Reordered.agree (h : Reordered r r') (hr : r.IsFunctional) : Agree r r' :=
  ⟨h.1, fun id => Table.lookup_perm hr h.2 id⟩

/-- To lay rules over equal maps, in whatever order, gives equal maps. -/
theorem Agree.overlay (habove : above.IsFunctional) (h : Agree below r)
    (h' : Reordered above r') : Agree (overlay below above) (overlay r r') := by
  obtain ⟨hgeneral, hget⟩ := h'.agree habove
  refine ⟨hgeneral, ?_⟩
  intro id
  rw [get?_overlay habove, get?_overlay (h'.isFunctional habove), hget, h.2]

/-- The order in which the rules are listed has no influence on the merged rule set. -/
theorem agree_merge_of_reordered (hrs : ∀ r ∈ rs, r.IsFunctional)
    (h : List.Forall₂ Reordered rs rs') : Agree (merge rs) (merge rs') := by
  -- along both lists, on top of rule sets that agree
  suffices hfold : ∀ below below', Agree below below' →
      Agree (rs.foldl overlay below) (rs'.foldl overlay below') from
    hfold {} {} ⟨rfl, fun _ => rfl⟩
  induction h with
  | nil => exact fun _ _ hbelow => hbelow
  | cons hr _ ih =>
    obtain ⟨hfunctional, hrest⟩ := List.forall_mem_cons.1 hrs
    intro below below' hbelow
    exact ih hrest _ _ (hbelow.overlay hfunctional hr)

/-- Two lists of rule sets may be merged each on its own first. -/
theorem agree_merge_append (hrs : ∀ r ∈ rs, r.IsFunctional) (hrs' : ∀ r ∈ rs', r.IsFunctional)
    (h : rs' ≠ []) : Agree (merge (rs ++ rs')) (overlay (merge rs) (merge rs')) := by
  constructor
  · obtain ⟨front, last, rfl⟩ := (List.eq_nil_or_concat' rs').resolve_left h
    calc (merge (rs ++ (front ++ [last]))).general = last.general := by
          rw [← List.append_assoc, merge_concat]
          rfl
      _ = (merge (front ++ [last])).general := by
          rw [merge_concat]
          rfl
  · intro id
    rw [get?_overlay (isFunctional_merge rs'), get?_merge hrs, get?_merge hrs',
      get?_merge (List.forall_mem_append.2 ⟨hrs, hrs'⟩), List.filterMap_append,
      List.getLast?_append]

/-! ## Merged rule sets -/

/-- What a merged rule set does. The action it takes on a diagnostic is the one that the list of rule
sets has for it; the diagnostic is dropped if that is to suppress it, and otherwise gets the severity
that the action assigns, if any, and changes in nothing else; applying the rule set again changes
nothing. The order in which the rules of the rule sets are listed does not matter, and a list behind
another one may be merged on its own and put on top. -/
theorem merge_decides (hrs : ∀ r ∈ rs, r.IsFunctional) :
    (∀ d action, (merge rs).actionFor d = action ↔ Decides rs d action) ∧
    (∀ d, (merge rs).apply d = none ↔ Decides rs d .suppress) ∧
    (∀ d d', (merge rs).apply d = some d' ↔ ∃ action, Decides rs d action ∧ action ≠ .suppress ∧
      d' = { d with severity := action.severity?.getD d.severity }) ∧
    (∀ d, ((merge rs).apply d).bind (merge rs).apply = (merge rs).apply d) ∧
    (∀ rs', List.Forall₂ Reordered rs rs' → Agree (merge rs) (merge rs') ∧
      ∀ d, (merge rs).apply d = (merge rs').apply d) ∧
    (∀ rs', (∀ r ∈ rs', r.IsFunctional) → rs' ≠ [] →
      Agree (merge (rs ++ rs')) (overlay (merge rs) (merge rs')) ∧
      ∀ d, (merge (rs ++ rs')).apply d = (overlay (merge rs) (merge rs')).apply d) := by
  refine ⟨fun d action => (decides_iff hrs).symm, fun d => ?_, fun d d' => ?_, fun d => ?_,
    fun rs' hsame => ?_, fun rs' hrs' hne => ?_⟩
  · rw [decides_iff hrs]
    exact apply_eq_none_iff
  · rw [apply_eq_some_iff]
    exact exists_congr fun action => and_congr_left fun _ => (decides_iff hrs).symm
  · cases happly : (merge rs).apply d with
    | none => rfl
    | some d' => exact apply_of_apply happly
  · have hagree := agree_merge_of_reordered hrs hsame
    exact ⟨hagree, hagree.apply_eq⟩
  · have hagree := agree_merge_append hrs hrs' hne
    exact ⟨hagree, hagree.apply_eq⟩

/-- A rule set that drops the first rule and makes warnings errors. -/
def strict : RuleSet := { general := .error, specific := ⟨[("CA1", .suppress), ("CA2", .warn)]⟩ }

/-- A rule set that mentions the first rule only. -/
def lenient : RuleSet := { general := .info, specific := ⟨[("CA1", .unchanged)]⟩ }

/-- A warning of a rule. -/
def warningOf (id : String) : Diagnostic := ⟨id, .warning, "m", .none, false, 1, [], none⟩

/-- Merged in this order, the first rule is no longer dropped, and other warnings are
informational. -/
theorem merge_decides_of_lenient :
    (∀ r ∈ [strict, lenient], r.IsFunctional) ∧
      (merge [strict, lenient]).actionFor (warningOf "CA1") = .unchanged ∧
      (merge [strict, lenient]).apply (warningOf "CA2") = some (warningOf "CA2") ∧
      (merge [strict, lenient]).apply (warningOf "CA3") =
        some { warningOf "CA3" with severity := .info } ∧
      Agree (merge ([strict, lenient] ++ [strict]))
        (overlay (merge [strict, lenient]) (merge [strict])) := by
  have hfunctional : ∀ r ∈ [strict, lenient], r.IsFunctional := by decide
  obtain ⟨haction, -, happly, -, -, hparts⟩ := merge_decides hfunctional
  refine ⟨hfunctional, ?_, ?_, ?_, ?_⟩
  · have hsplit : [strict, lenient] = [strict] ++ lenient :: [] := rfl
    exact (haction _ _).2 (.mention hsplit rfl fun _ hr => absurd hr List.not_mem_nil)
  · have hsplit : [strict, lenient] = [] ++ strict :: [lenient] := rfl
    have hlast : ∀ r ∈ [lenient], r.specific.get? "CA2" = none := by decide
    exact (happly _ _).2 ⟨.warn, .mention hsplit rfl hlast, by decide, rfl⟩
  · have hsplit : [strict, lenient] = [strict] ++ [lenient] := rfl
    have hnone : ∀ r ∈ [strict, lenient], r.specific.get? "CA3" = none := by decide
    exact (happly _ _).2 ⟨.info, .general hsplit hnone rfl, by decide, rfl⟩
  · exact (hparts [strict] (by decide) (List.cons_ne_nil _ _)).1

end Retrace.RuleSet
