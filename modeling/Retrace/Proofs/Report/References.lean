import Retrace.Proofs.Session.Caching
import Mathlib.Data.List.Forall2
import Mathlib.Data.List.Induction
import Mathlib.Data.List.Nodup
import Mathlib.Data.List.Perm.Subperm

/-!
# Results refer to rules

The results of a report name their rules by identifier and by index, and the index is given out
while the list of rules still grows. `RuleRegistry.Lists` says what the registry of rules is after
some descriptors: the rules are those of the first descriptor of each identifier, and the table
holds exactly the indices of their identifiers. Entering a descriptor keeps this (`Lists.register`)
and only appends to the rules, so an index stays right (`Reports.mono`). By induction over the
diagnostics each of them that has a descriptor has its result (`results_spec`), and
`process_references` reads off the report that references are sound and complete.
-/

namespace Retrace

/-! ## Orders of first occurrence -/

section FirstOccurrence

variable {α : Type} [DecidableEq α] {l : List α} {a : α}

/-- What was there before adds nothing. -/
theorem eraseDups_concat_of_mem (h : a ∈ l) : (l ++ [a]).eraseDups = l.eraseDups := by
  have hknown : [a].removeAll l = [] := by simp [List.removeAll, h]
  rw [List.eraseDups_append, hknown, List.eraseDups_nil, List.append_nil]

/-- What was not there before goes to the end. -/
theorem eraseDups_concat_of_not_mem (h : a ∉ l) :
    (l ++ [a]).eraseDups = l.eraseDups ++ [a] := by
  have hnew : [a].removeAll l = [a] := by simp [List.removeAll, h]
  rw [List.eraseDups_append, hnew, List.eraseDups_cons, List.filter_nil, List.eraseDups_nil]

/-- Without repetitions there are none. -/
theorem nodup_eraseDups (l : List α) : l.eraseDups.Nodup := by
  induction l using List.reverseRecOn with
  | nil => exact List.nodup_nil
  | append_singleton l a ih =>
    by_cases h : a ∈ l
    · rwa [eraseDups_concat_of_mem h]
    · rw [eraseDups_concat_of_not_mem h]
      refine List.nodup_append.2 ⟨ih, List.nodup_singleton a, ?_⟩
      rintro b hb c hc rfl
      rw [List.mem_singleton.1 hc] at hb
      exact h (List.mem_eraseDups.1 hb)

/-- What is appended to a list without it is at the end and nowhere else. -/
theorem getElem?_concat_iff (ha : a ∉ l) {b : α} {i : Nat} :
    (l ++ [a])[i]? = some b ↔ if a = b then i = l.length else l[i]? = some b := by
  rcases Nat.lt_trichotomy i l.length with hlt | rfl | hgt
  · rw [List.getElem?_append_left hlt]
    split
    · next heq =>
      refine iff_of_false (fun hb => ha ?_) (Nat.ne_of_lt hlt)
      exact heq ▸ List.mem_of_getElem? hb
    · rfl
  · rw [List.getElem?_concat_length, List.getElem?_eq_none (Nat.le_refl _)]
    simp
  · rw [List.getElem?_eq_none (by rw [List.length_append, List.length_singleton]; omega),
      List.getElem?_eq_none (Nat.le_of_lt hgt)]
    simp [Nat.ne_of_gt hgt]

end FirstOccurrence

namespace RuleRegistry

variable {r : RuleRegistry} {seen : List RuleDescriptor}

/-! ## The registry -/

/-- The identifiers of the rules, in order. -/
def ids (r : RuleRegistry) : List String := r.rules.map (·.id)

/-- The registry holds the rules of these descriptors. -/
structure Lists (r : RuleRegistry) (seen : List RuleDescriptor) : Prop where
  /-- Each identifier is there once, in the order of its first descriptor. -/
  ids : r.ids = (seen.map (·.id)).eraseDups
  /-- What a rule says is what the first descriptor of its identifier says. -/
  first : ∀ rule ∈ r.rules, ∃ d, seen.find? (fun d => d.id == rule.id) = some d ∧ rule = d.toRule
  /-- The table holds the indices of the identifiers, and nothing else. -/
  indices : ∀ id index, r.indices.get? id = some index ↔ r.ids[index]? = some id

/-- An empty registry holds the rules of no descriptors. -/
theorem lists_empty : ({} : RuleRegistry).Lists [] where
  ids := rfl
  first := by simp
  indices := by simp [RuleRegistry.ids]

/-- The registry has the identifiers of the descriptors that were seen, and no others. -/
theorem Lists.mem_ids (h : r.Lists seen) (id : String) : id ∈ r.ids ↔ id ∈ seen.map (·.id) := by
  rw [h.ids, List.mem_eraseDups]

/-- An identifier has no index if and only if it was not seen. -/
theorem Lists.get?_eq_none_iff (h : r.Lists seen) (id : String) :
    r.indices.get? id = none ↔ id ∉ seen.map (·.id) := by
  rw [← h.mem_ids, List.mem_iff_getElem?, Option.eq_none_iff_forall_ne_some, not_exists]
  exact forall_congr' fun index => not_congr (h.indices id index)

/-- Entering a descriptor only appends to the rules. -/
theorem rules_register (r : RuleRegistry) (d : RuleDescriptor) :
    r.rules <+: (r.register d).2.rules := by
  unfold register
  split
  · exact List.prefix_rfl
  · exact List.prefix_append _ _

/-- A descriptor of a known rule changes nothing. -/
theorem Lists.known (h : r.Lists seen) {d : RuleDescriptor} (hd : d.id ∈ seen.map (·.id)) :
    r.Lists (seen ++ [d]) where
  ids := by rw [h.ids, List.map_append, List.map_singleton, eraseDups_concat_of_mem hd]
  first rule hrule := by
    obtain ⟨first, hfirst, heq⟩ := h.first rule hrule
    exact ⟨first, by rw [List.find?_append, hfirst, Option.some_or], heq⟩
  indices := h.indices

/-- The rule of a descriptor with a new identifier is appended. -/
theorem Lists.appended (h : r.Lists seen) {d : RuleDescriptor} (hd : d.id ∉ seen.map (·.id)) :
    Lists ⟨r.rules ++ [d.toRule], r.indices.insert d.id r.rules.length⟩ (seen ++ [d]) where
  ids := by
    rw [List.map_append, List.map_singleton, eraseDups_concat_of_not_mem hd, ← h.ids]
    exact List.map_append
  first rule hrule := by
    rcases List.mem_append.1 hrule with hold | hnew
    · obtain ⟨first, hfirst, heq⟩ := h.first rule hold
      exact ⟨first, by rw [List.find?_append, hfirst, Option.some_or], heq⟩
    · obtain rfl := List.mem_singleton.1 hnew
      -- the descriptor is the first one of its identifier, since none was seen before
      have hnone : seen.find? (fun other => other.id == d.toRule.id) = none := by
        refine List.find?_eq_none.2 fun other hother heq => hd ?_
        have hid : other.id = d.id := beq_iff_eq.1 heq
        exact hid ▸ List.mem_map_of_mem hother
      refine ⟨d, ?_, rfl⟩
      rw [List.find?_append, hnone, Option.none_or]
      exact List.find?_cons_of_pos (beq_self_eq_true d.id)
  indices id index := by
    have hids : (⟨r.rules ++ [d.toRule], r.indices.insert d.id r.rules.length⟩ : RuleRegistry).ids =
        r.ids ++ [d.id] := List.map_append
    have hlength : r.ids.length = r.rules.length := List.length_map _
    rw [hids, getElem?_concat_iff (mt (h.mem_ids d.id).1 hd), Table.get?_insert, hlength]
    split
    · rw [Option.some.injEq, eq_comm]
    · exact h.indices id index

/-- A rule whose identifier is in the list is not entered again; what stands there is given out. -/
theorem Lists.register_of_ids (h : r.Lists seen) {d : RuleDescriptor} {index : Nat}
    {rule : Sarif.Rule} (hrule : r.rules[index]? = some rule) (hid : rule.id = d.id) :
    r.register d = ((index, rule), r) := by
  have hindex : r.indices.get? d.id = some index := by
    rw [h.indices, RuleRegistry.ids, List.getElem?_map, hrule, ← hid]
    rfl
  rw [RuleRegistry.register, hindex]
  dsimp only
  rw [hrule, Option.getD_some]

/-- The rule of a descriptor with a new identifier is entered behind the others. -/
theorem Lists.register_of_new (h : r.Lists seen) {d : RuleDescriptor} (hd : d.id ∉ seen.map (·.id)) :
    r.register d = ((r.rules.length, d.toRule),
      ⟨r.rules ++ [d.toRule], r.indices.insert d.id r.rules.length⟩) := by
  rw [RuleRegistry.register, (h.get?_eq_none_iff d.id).2 hd]

/-- The rule of an identifier that was seen is in the list. -/
theorem Lists.exists_rule (h : r.Lists seen) {id : String} (hid : id ∈ seen.map (·.id)) :
    ∃ (index : Nat) (rule : Sarif.Rule), r.rules[index]? = some rule ∧ rule.id = id := by
  obtain ⟨index, hindex⟩ := List.mem_iff_getElem?.1 ((h.mem_ids id).2 hid)
  rw [RuleRegistry.ids, List.getElem?_map, Option.map_eq_some_iff] at hindex
  obtain ⟨rule, hrule, hid⟩ := hindex
  exact ⟨index, rule, hrule, hid⟩

/-- Entering a descriptor keeps that the registry holds the rules of the descriptors, and gives the
index of a rule with its identifier. -/
theorem Lists.register (h : r.Lists seen) (d : RuleDescriptor) :
    (r.register d).2.Lists (seen ++ [d]) ∧
      (r.register d).2.rules[(r.register d).1.1]? = some (r.register d).1.2 ∧
      (r.register d).1.2.id = d.id := by
  by_cases hd : d.id ∈ seen.map (·.id)
  · obtain ⟨index, rule, hrule, hid⟩ := h.exists_rule hd
    rw [h.register_of_ids hrule hid]
    exact ⟨h.known hd, hrule, hid⟩
  · rw [h.register_of_new hd]
    exact ⟨h.appended hd, List.getElem?_concat_length, rfl⟩

/-- No identifier is registered twice. -/
theorem Lists.nodup (h : r.Lists seen) : r.ids.Nodup := by
  rw [h.ids]
  exact nodup_eraseDups _

/-- There are no more rules than descriptors were seen. -/
theorem Lists.length_le (h : r.Lists seen) : r.rules.length ≤ seen.length := by
  have hsubset : r.ids ⊆ seen.map (·.id) := fun id => (h.mem_ids id).1
  have hle := (h.nodup.subperm hsubset).length_le
  rwa [RuleRegistry.ids, List.length_map, List.length_map] at hle

end RuleRegistry

namespace Report

open RuleRegistry

variable {ν : Type} {s t : Session ν} {rules rules' : List Sarif.Rule}

/-! ## The results -/

/-- The result reports the diagnostic, at the place that the session or what it became gives it,
under the rule of its descriptor. -/
inductive Reports (s : Session ν) (rules : List Sarif.Rule) (d : Diagnostic) : Sarif.Result → Prop
  | intro {rule : RuleDescriptor} {index : Nat} {t : Session ν}
    (descriptor : d.descriptor = some rule) (later : s.Continues t)
    (indexed : (rules.map (·.id))[index]? = some rule.id) :
    Reports s rules d (result d rule.id index (place s.fileName d.location (t.resolve d).1))

/-- More rules at the end and an earlier session do not matter. -/
theorem Reports.mono {d : Diagnostic} {r : Sarif.Result} (h : Reports t rules d r)
    (hrules : rules <+: rules') (hlater : s.Continues t) : Reports s rules' d r := by
  obtain ⟨hdescriptor, hcontinues, hindexed⟩ := h
  obtain ⟨more, rfl⟩ := hrules
  rw [hlater.fileName]
  refine .intro hdescriptor (hlater.trans hcontinues) ?_
  rw [List.map_append, List.getElem?_append_left (List.getElem?_eq_some_iff.1 hindexed).1]
  exact hindexed

/-- The index of a result is that of its identifier. -/
theorem Reports.index {d : Diagnostic} {r : Sarif.Result} (h : Reports s rules d r) :
    (rules.map (·.id))[r.ruleIndex]? = some r.ruleId := by
  obtain ⟨-, -, hindexed⟩ := h
  exact hindexed

/-- A diagnostic without a descriptor is noted in the log and has no result. -/
theorem results_of_none {registry : RuleRegistry} {d : Diagnostic} (hd : d.descriptor = none)
    (rest : List Diagnostic) : results registry s (d :: rest) = results registry
      (s.note [⟨.error, s!"Diagnostic {d.id} has no rule descriptor and is not reported"⟩]) rest := by
  rw [results, hd]

/-- A diagnostic with a descriptor has the first result, under the rule that it is registered as and
at the place that the session gives it. -/
theorem results_of_some {registry : RuleRegistry} {d : Diagnostic} {rule : RuleDescriptor}
    (hd : d.descriptor = some rule) (rest : List Diagnostic) :
    results registry s (d :: rest) =
      (result d (registry.register rule).1.2.id (registry.register rule).1.1
          (place s.fileName d.location (s.resolve d).1) ::
            (results (registry.register rule).2 (s.resolve d).2 rest).1,
        (results (registry.register rule).2 (s.resolve d).2 rest).2) := by
  rw [results, hd, ← (s.resolve_spec d).1.fileName]

/-- Every diagnostic with a descriptor has its result, and the rules are those of the descriptors.
-/
theorem results_spec {registry : RuleRegistry} {seen : List RuleDescriptor}
    (h : registry.Lists seen) (s : Session ν) (ds : List Diagnostic) :
    (results registry s ds).2.1.Lists (seen ++ ds.filterMap (·.descriptor)) ∧
      registry.rules <+: (results registry s ds).2.1.rules ∧
      List.Forall₂ (Reports s (results registry s ds).2.1.rules)
        (ds.filter fun d => d.descriptor.isSome) (results registry s ds).1 := by
  induction ds generalizing registry seen s with
  | nil =>
    rw [List.filterMap_nil, List.append_nil]
    exact ⟨h, List.prefix_rfl, .nil⟩
  | cons d rest ih =>
    cases hd : d.descriptor with
    | none =>
      rw [results_of_none hd, List.filterMap_cons_none hd, List.filter_cons_of_neg (by simp [hd])]
      obtain ⟨hlists, hrules, hresults⟩ := ih h (s.note _)
      have hlater := s.continues_note
        [⟨.error, s!"Diagnostic {d.id} has no rule descriptor and is not reported"⟩]
      exact ⟨hlists, hrules, hresults.imp fun _ _ hr => hr.mono List.prefix_rfl hlater⟩
    | some rule =>
      rw [results_of_some hd, List.filterMap_cons_some hd, List.filter_cons_of_pos (by simp [hd]),
        List.append_cons]
      obtain ⟨hregistered, hentered, hid⟩ := h.register rule
      obtain ⟨hlists, hrules, hresults⟩ := ih hregistered (s.resolve d).2
      -- the rule is registered now, and what is registered later leaves its index alone
      have hindexed : ((registry.register rule).2.rules.map (·.id))[(registry.register rule).1.1]? =
          some rule.id := by
        rw [List.getElem?_map, hentered, ← hid]
        rfl
      rw [hid]
      have hfirst : Reports s (registry.register rule).2.rules d _ := .intro hd (.refl s) hindexed
      have hlater := (s.resolve_spec d).1
      exact ⟨hlists, (registry.rules_register rule).trans hrules,
        .cons (hfirst.mono hrules (.refl s))
          (hresults.imp fun _ _ hr => hr.mono List.prefix_rfl hlater)⟩

/-- What is in the second list has a partner in the first one. -/
theorem exists_of_mem_right {α β : Type} {R : α → β → Prop} {l : List α} {l' : List β}
    (h : List.Forall₂ R l l') {b : β} (hb : b ∈ l') : ∃ a ∈ l, R a b := by
  induction h with
  | nil => cases hb
  | cons hfirst _ ih =>
    rcases List.mem_cons.1 hb with rfl | hb
    · exact ⟨_, List.mem_cons_self, hfirst⟩
    · obtain ⟨a, ha, hab⟩ := ih hb
      exact ⟨a, List.mem_cons_of_mem _ ha, hab⟩

/-- The identifiers of the results are those of the descriptors, in order. -/
theorem map_ruleId {ds : List Diagnostic} {found : List Sarif.Result}
    (h : List.Forall₂ (Reports s rules) ds found) :
    found.map (·.ruleId) = (ds.filterMap (·.descriptor)).map (·.id) := by
  induction h with
  | nil => rfl
  | cons hfirst _ ih =>
    obtain ⟨hd, -, -⟩ := hfirst
    rw [List.map_cons, ih, List.filterMap_cons_some hd, List.map_cons]
    rfl

/-- The diagnostics without a descriptor have none to add. -/
theorem filterMap_descriptor (ds : List Diagnostic) :
    (ds.filter fun d => d.descriptor.isSome).filterMap (·.descriptor) =
      ds.filterMap (·.descriptor) := by
  rw [List.filterMap_filter]
  congr 1
  funext d
  cases hd : d.descriptor with
  | none => rfl
  | some rule => rfl

/-- In the report of a session, whatever it was asked before, references to rules are sound and
complete. The index of each result is one of a rule, whose identifier is the result's. The
identifiers of the rules are different and in the order in which the results first use them, and
every rule is referred to. Each rule says what the first descriptor of its identifier says. And
there is one result for each diagnostic with a descriptor, in order, under the identifier of its
descriptor. -/
theorem process_references (s : Session ν) (ds : List Diagnostic) :
    ∃ (rules : List Sarif.Rule) (found : List Sarif.Result),
      (process s ds).1 = logOf rules found ∧
      (∀ r ∈ found, ∃ h : r.ruleIndex < rules.length, rules[r.ruleIndex].id = r.ruleId) ∧
      (rules.map (·.id)).Nodup ∧
      rules.map (·.id) = (found.map (·.ruleId)).eraseDups ∧
      (∀ i < rules.length, ∃ r ∈ found, r.ruleIndex = i) ∧
      (∀ rule ∈ rules, ∃ first,
        (ds.filterMap (·.descriptor)).find? (fun d => d.id == rule.id) = some first ∧
        rule = first.toRule) ∧
      List.Forall₂ (fun d r => ∃ rule place, d.descriptor = some rule ∧
          r = result d rule.id r.ruleIndex place)
        (ds.filter fun d => d.descriptor.isSome) found := by
  obtain ⟨hlists, -, hresults⟩ := results_spec lists_empty s ds
  rw [List.nil_append] at hlists
  set found := (results {} s ds).1
  set rules := (results {} s ds).2.1.rules
  have hindexed : ∀ r ∈ found, (rules.map (·.id))[r.ruleIndex]? = some r.ruleId := by
    intro r hr
    obtain ⟨d, -, hreports⟩ := exists_of_mem_right hresults hr
    exact hreports.index
  have hused : rules.map (·.id) = (found.map (·.ruleId)).eraseDups := by
    rw [map_ruleId hresults, filterMap_descriptor]
    exact hlists.ids
  refine ⟨rules, found, rfl, fun r hr => ?_, hlists.nodup, hused, fun i hi => ?_, hlists.first, ?_⟩
  · have hr := hindexed r hr
    rw [List.getElem?_map, Option.map_eq_some_iff] at hr
    obtain ⟨rule, hrule, hid⟩ := hr
    obtain ⟨hlt, heq⟩ := List.getElem?_eq_some_iff.1 hrule
    exact ⟨hlt, heq ▸ hid⟩
  · -- the rule's identifier is that of a result, whose index can only be the rule's
    have hi' : i < (rules.map (·.id)).length := by rwa [List.length_map]
    have hmem : (rules.map (·.id))[i] ∈ (found.map (·.ruleId)).eraseDups :=
      hused ▸ List.getElem_mem hi'
    obtain ⟨r, hr, hid⟩ := List.mem_map.1 (List.mem_eraseDups.1 hmem)
    refine ⟨r, hr, ?_⟩
    obtain ⟨hlt, heq⟩ := List.getElem?_eq_some_iff.1 (hindexed r hr)
    exact (hlists.nodup.getElem_inj_iff).1 (heq.trans hid)
  · refine hresults.imp fun d r hr => ?_
    obtain ⟨hd, -, -⟩ := hr
    exact ⟨_, _, hd, rfl⟩

end Report

end Retrace
