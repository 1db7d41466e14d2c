import Retrace.Proofs.Json.Members

/-!
# Records in objects

A record is written as an object that leaves out the fields without a value. `Members.ofSlots` is
this object, given the fields in order with their values, and reading the fields of its tree finds
the same values under the same names (`Tree.fields?_ofSlots`), if no two fields have one name. What
is left is to read each field; the lemmas at the end do so for a field that is required, one that
may be absent, and one that is left out when it is empty.
-/

namespace Retrace.Json

/-- The members of a record: of its fields, those that have a value. -/
def Members.ofSlots (slots : List (String × Option Json)) : Members :=
  slots.filterMap fun s => s.2.map fun v => (s.1, v)

theorem Members.ofSlots_nil : ofSlots [] = [] := rfl

/-- A field with a value is a member in front of those of the other fields. -/
theorem Members.ofSlots_cons (name : String) (value : Option Json)
    (slots : List (String × Option Json)) : ofSlots ((name, value) :: slots) =
      (value.map fun v => (name, v)).toList ++ ofSlots slots := by
  cases value with
  | none => rfl
  | some v => rfl

/-- A record has integers only if its fields do. -/
theorem Integral.ofSlots {slots : List (String × Option Json)}
    (h : ∀ s ∈ slots, ∀ v ∈ s.2, v.Integral) : (Json.object (Members.ofSlots slots)).Integral := by
  refine .object fun m hm => ?_
  obtain ⟨⟨name, value⟩, hslot, hmember⟩ := List.mem_filterMap.1 hm
  obtain ⟨v, rfl, rfl⟩ := Option.map_eq_some_iff.1 hmember
  exact h _ hslot v rfl

/-- An array has integers only if its items do. -/
theorem Integral.array_map {α : Type} {write : α → Json} {items : List α}
    (h : ∀ a ∈ items, (write a).Integral) : (Json.array (items.map write)).Integral := by
  refine .array fun v hv => ?_
  obtain ⟨a, ha, rfl⟩ := List.mem_map.1 hv
  exact h a ha

namespace Tree

/-! ## Fields -/

/-- The trees of the members of a record. -/
def slotTrees (slots : List (String × Option Json)) : List (Option String × Tree) :=
  slots.filterMap fun s => s.2.map fun v => (some s.1, treeOf v)

theorem slotTrees_none (name : String) (slots : List (String × Option Json)) :
    slotTrees ((name, none) :: slots) = slotTrees slots := rfl

theorem slotTrees_some (name : String) (v : Json) (slots : List (String × Option Json)) :
    slotTrees ((name, some v) :: slots) = (some name, treeOf v) :: slotTrees slots := rfl

/-- The trees of a record are those of the fields that have a value. -/
theorem memberTrees_ofSlots (slots : List (String × Option Json)) :
    memberTrees (Members.ofSlots slots) = slotTrees slots := by
  rw [memberTrees_eq_map, Members.ofSlots, slotTrees, List.map_filterMap]
  simp only [Option.map_map, Function.comp_def]

/-- The members of other names do not count. -/
theorem filter_slotTrees_eq_nil {name : String} {slots : List (String × Option Json)}
    (h : name ∉ slots.map (·.1)) : (slotTrees slots).filter (fun m => m.1 == some name) = [] := by
  refine List.filter_eq_nil_iff.2 fun m hm heq => h ?_
  obtain ⟨⟨name', value⟩, hslot, hmember⟩ := List.mem_filterMap.1 hm
  obtain ⟨v, -, rfl⟩ := Option.map_eq_some_iff.1 hmember
  obtain rfl : name' = name := by simpa using heq
  exact List.mem_map_of_mem hslot

/-- Under the name of a field stands its value. -/
theorem fieldOf?_slotTrees {slots : List (String × Option Json)} (hnames : (slots.map (·.1)).Nodup)
    {s : String × Option Json} (hs : s ∈ slots) :
    fieldOf? s.1 (slotTrees slots) = some (s.2.map treeOf) := by
  induction slots with
  | nil => cases hs
  | cons first rest ih =>
    obtain ⟨name, value⟩ := first
    obtain ⟨hfirst, hrest⟩ := List.nodup_cons.1 hnames
    rcases List.mem_cons.1 hs with rfl | hlater
    · have hnone : (slotTrees rest).filter (fun m => m.1 == some name) = [] :=
        filter_slotTrees_eq_nil hfirst
      cases value with
      | none => rw [slotTrees_none, fieldOf?, hnone]; rfl
      | some v => rw [slotTrees_some, fieldOf?, List.filter_cons_of_pos (by simp), hnone]; rfl
    · have hne : name ≠ s.1 := by
        rintro rfl
        exact hfirst (List.mem_map.2 ⟨s, hlater, rfl⟩)
      rw [← ih hrest hlater]
      cases value with
      | none => rfl
      | some v => rw [slotTrees_some, fieldOf?, List.filter_cons_of_neg (by simp [hne])]; rfl

/-- If everything that is written can be read, a list is read back item by item. -/
theorem mapM_eq_some {α β γ : Type} {f : α → β} {g : β → Option γ} {h : α → γ} {l : List α}
    (hl : ∀ a ∈ l, g (f a) = some (h a)) : (l.map f).mapM g = some (l.map h) := by
  induction l with
  | nil => rfl
  | cons a l ih =>
    obtain ⟨ha, hl⟩ := List.forall_mem_cons.1 hl
    simp [ha, ih hl]

/-- The fields of a record are found in its object. -/
theorem fields?_ofSlots {v : Json} {names : List String} {slots : List (String × Option Json)}
    (hv : v = .object (Members.ofSlots slots)) (heq : slots.map (·.1) = names)
    (hnames : names.Nodup) :
    fields? names (treeOf v) = some (slots.map fun s => s.2.map treeOf) := by
  subst hv heq
  have hkeys : (slotTrees slots).all fun m => m.1.isSome := by
    refine List.all_eq_true.2 fun m hm => ?_
    obtain ⟨s, -, hmember⟩ := List.mem_filterMap.1 hm
    obtain ⟨v, -, rfl⟩ := Option.map_eq_some_iff.1 hmember
    rfl
  rw [treeOf, memberTrees_ofSlots, fields?, if_pos hkeys]
  exact mapM_eq_some fun s hs => fieldOf?_slotTrees hnames hs

/-! ## Values of fields -/

section Values

variable {α : Type} {read : Tree → Option α} {write : α → Json}

/-- A value that is read is read as a field that is required. -/
theorem required_of_read {v : Json} {a : α} (h : read (treeOf v) = some a) :
    required read (some (treeOf v)) = some a := h

/-- A text that has to be there is read back. -/
theorem required_string (value : String) :
    required text? (some (treeOf (.string value))) = some value := rfl

/-- So is a truth value. -/
theorem required_bool (value : Bool) :
    required bool? (some (treeOf (.bool value))) = some value := rfl

/-- So is a number below the limit of its type. -/
theorem required_ofNat {limit n : Nat} (h : n < limit) :
    required (nat? limit) (some (treeOf (.ofNat n))) = some n := by
  have hlimit : (n : Int) < limit := by exact_mod_cast h
  simp [required, ofNat, treeOf, numberLiteral, NumberLiteral.ofInt, nat?, hlimit]

/-- A value that is not null is read if it is present. -/
theorem optional_map {value : Option α}
    (h : ∀ a ∈ value, write a ≠ .null ∧ read (treeOf (write a)) = some a) :
    optional read ((value.map write).map treeOf) = some value := by
  cases value with
  | none => rfl
  | some a =>
    obtain ⟨hnull, hread⟩ := h a rfl
    rw [Option.map_some, Option.map_some, optional, hread, Option.map_some]
    intro heq
    cases hwritten : write a with
    | null => exact hnull hwritten
    | _ => rw [hwritten] at heq; cases heq

/-- A list is read back if each of its items is. -/
theorem list?_map {items : List α} (h : ∀ a ∈ items, read (treeOf (write a)) = some a) :
    list? read (treeOf (.array (items.map write))) = some items := by
  rw [treeOf, itemTrees_eq_map, list?, List.map_map]
  simpa using mapM_eq_some (f := treeOf ∘ write) (g := read) (h := id) (l := items) h

end Values

end Tree

end Retrace.Json
