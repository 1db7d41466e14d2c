import Retrace.Proofs.Report.References
import Mathlib.Data.List.ReduceOption

/-!
# What a registry of rules keeps

A registry is asked for the indices of rules one after the other: of the same rule again, of a rule whose
descriptor says something else than before, and of no rule at all (`RuleRegistry.registerAll`). Its list
of rules and its table of indices are changed in separate steps, and `Lists` ties them to each other and
to the descriptors seen so far; it is kept by every run (`Lists.registerAll`).

What was given out stays right for two reasons. Rules are only appended (`rules_registerAll`), so that an
index keeps its rule; and the table holds nothing but the indices of the identifiers in the list
(`Lists.indices`), so that an identifier with an index is never entered again (`Lists.register_of_ids`).
-/

namespace Retrace.RuleRegistry

variable {r : RuleRegistry} {seen : List RuleDescriptor}

/-- The registry after rules that may lack a descriptor were registered, one after the other. -/
def registerAll (r : RuleRegistry) (ds : List (Option RuleDescriptor)) : RuleRegistry :=
  ds.foldl (fun r d => (r.register? d).2) r

/-- Rules are registered one after the other, so that a list may be cut at any of them. -/
theorem registerAll_append_cons (r : RuleRegistry) (ds later : List (Option RuleDescriptor))
    (d : RuleDescriptor) :
    r.registerAll (ds ++ some d :: later) = ((r.registerAll ds).register d).2.registerAll later := by
  rw [registerAll, List.foldl_append]
  rfl

/-- A registry goes on to hold the rules of all descriptors that it has seen. -/
theorem Lists.registerAll (h : r.Lists seen) (ds : List (Option RuleDescriptor)) :
    (r.registerAll ds).Lists (seen ++ ds.reduceOption) := by
  induction ds generalizing r seen with
  | nil =>
    rw [List.reduceOption_nil, List.append_nil]
    exact h
  | cons d rest ih =>
    cases d with
    | none =>
      rw [List.reduceOption_cons_of_none]
      exact ih h
    | some d =>
      rw [List.reduceOption_cons_of_some, List.append_cons]
      exact ih (h.register d).1

/-- Registering more rules only adds to the end of the list. -/
theorem rules_registerAll (r : RuleRegistry) (ds : List (Option RuleDescriptor)) :
    r.rules <+: (r.registerAll ds).rules := by
  induction ds generalizing r with
  | nil => exact List.prefix_rfl
  | cons d rest ih =>
    cases d with
    | none => exact ih r
    | some d => exact (r.rules_register d).trans (ih (r.register d).2)

/-- A rule is appended to the list if no descriptor had its identifier before. -/
theorem Lists.rules_register_eq (h : r.Lists seen) (d : RuleDescriptor) :
    (r.register d).2.rules =
      if d.id ∈ seen.map (·.id) then r.rules else r.rules ++ [d.toRule] := by
  split
  · next hknown =>
    obtain ⟨index, rule, hrule, hid⟩ := h.exists_rule hknown
    rw [h.register_of_ids hrule hid]
  · next hnew =>
    rw [h.register_of_new hnew]

/-- However rules are registered one after the other, the identifiers in the list and the indices in the
table are inverse to each other, and no rule at all changes nothing. The list grows, by one rule,
exactly when an identifier comes up that no descriptor had before. And the index that is given out for
an identifier is that of a rule with this identifier: whatever is registered later, every descriptor
with the same identifier gets the same index and changes nothing, and the rule at it stays. -/
theorem registerAll_keeps (ds : List (Option RuleDescriptor)) :
    let r := ({} : RuleRegistry).registerAll ds
    (∀ id index, r.indices.get? id = some index ↔ (r.rules.map (·.id))[index]? = some id) ∧
    r.register? none = (none, r) ∧
    ∀ d : RuleDescriptor,
      (r.register? (some d)).2.rules =
        (if d.id ∈ ds.reduceOption.map (·.id) then r.rules else r.rules ++ [d.toRule]) ∧
      ∃ index rule, (r.register? (some d)).1 = some index ∧
        (r.register? (some d)).2.rules[index]? = some rule ∧ rule.id = d.id ∧
        ∀ (later : List (Option RuleDescriptor)) (d' : RuleDescriptor), d'.id = d.id →
          let t := ({} : RuleRegistry).registerAll (ds ++ some d :: later)
          t.register? (some d') = (some index, t) ∧ t.rules[index]? = some rule := by
  intro r
  have hlists : r.Lists ds.reduceOption := lists_empty.registerAll ds
  refine ⟨hlists.indices, rfl, fun d => ⟨hlists.rules_register_eq d, ?_⟩⟩
  obtain ⟨hentered, hrule, hid⟩ := hlists.register d
  refine ⟨(r.register d).1.1, (r.register d).1.2, rfl, hrule, hid, fun later d' hd' => ?_⟩
  intro t
  have ht : t = (r.register d).2.registerAll later := registerAll_append_cons {} ds later d
  have hlater : t.Lists ((ds.reduceOption ++ [d]) ++ later.reduceOption) :=
    ht ▸ hentered.registerAll later
  have hkept : t.rules[(r.register d).1.1]? = some (r.register d).1.2 := by
    -- what is registered later is behind it
    obtain ⟨more, hmore⟩ := (r.register d).2.rules_registerAll later
    rw [ht, ← hmore, List.getElem?_append_left (List.getElem?_eq_some_iff.1 hrule).1]
    exact hrule
  refine ⟨?_, hkept⟩
  rw [register?, hlater.register_of_ids hkept (hid.trans hd'.symm)]

/-- A rule behind another one, with no rule at all in between. After both were registered again, a
descriptor that calls the second one otherwise gets its index, and the title stays. -/
theorem registerAll_keeps_of_retitled :
    let first : RuleDescriptor := ⟨"A1", "a", "", none, "", [], .warning, true⟩
    let second : RuleDescriptor := ⟨"B2", "b", "", none, "", [], .warning, true⟩
    let retitled : RuleDescriptor := { second with title := "c" }
    let t := ({} : RuleRegistry).registerAll [some first, none, some second, some first, some retitled]
    retitled.id = second.id ∧ t.register? (some retitled) = (some 1, t) ∧
      t.rules[1]? = some second.toRule := by
  intro first second retitled t
  obtain ⟨-, -, hregister⟩ := registerAll_keeps [some first, none]
  obtain ⟨-, index, rule, hindex, hrule, -, hlater⟩ := hregister second
  obtain rfl : 1 = index := Option.some.inj (Eq.trans rfl hindex)
  obtain rfl : second.toRule = rule := Option.some.inj (Eq.trans rfl hrule)
  exact ⟨rfl, hlater [some first, some retitled] retitled rfl⟩

end Retrace.RuleRegistry
