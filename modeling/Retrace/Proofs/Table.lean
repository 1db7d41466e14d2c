import Retrace.Table
import Mathlib.Data.List.Nodup

/-!
# Tables put on top of each other

A table whose keys are distinct is a finite map: the value of a key does not depend on the order of
the entries (`Table.lookup_perm`). Inserting all entries of such a table one after the other puts it
on top of another one (`Table.get?_foldl_insert`), and insertion keeps keys distinct.
-/

namespace Retrace

namespace Table

variable {κ α : Type} [DecidableEq κ] {t : Table κ α} {k : κ} {a : α} {entries : List (κ × α)}

/-- Nothing is found for exactly those keys that no entry has. -/
theorem lookup_eq_none_iff : lookup k entries = none ↔ k ∉ entries.map Prod.fst := by
  induction entries with
  | nil => simp [lookup]
  | cons e rest ih =>
    obtain ⟨k', a'⟩ := e
    by_cases heq : k' = k
    · simp [lookup, heq]
    · simp [lookup, heq, ih, Ne.symm heq]

/-- What is found is in one of the entries. -/
theorem mem_of_lookup (h : lookup k entries = some a) : (k, a) ∈ entries := by
  induction entries with
  | nil => cases h
  | cons e rest ih =>
    obtain ⟨k', a'⟩ := e
    rw [lookup] at h
    split at h
    · next heq =>
      subst heq
      cases h
      exact List.mem_cons_self
    · exact List.mem_cons_of_mem _ (ih h)

/-- If the keys are different, each entry is found. -/
theorem lookup_of_mem (hnodup : (entries.map Prod.fst).Nodup) (h : (k, a) ∈ entries) :
    lookup k entries = some a := by
  induction entries with
  | nil => cases h
  | cons e rest ih =>
    obtain ⟨k', a'⟩ := e
    obtain ⟨hfresh, hrest⟩ := List.nodup_cons.1 hnodup
    rw [lookup]
    rcases List.mem_cons.1 h with heq | hmem
    · cases heq
      exact if_pos rfl
    · have hne : k' ≠ k := by
        rintro rfl
        exact hfresh (List.mem_map.2 ⟨_, hmem, rfl⟩)
      rw [if_neg hne]
      exact ih hrest hmem

/-- If no key is listed twice, its value does not depend on the order of the entries. -/
theorem lookup_perm {entries' : List (κ × α)} (hnodup : (entries.map Prod.fst).Nodup)
    (hperm : entries.Perm entries') (k : κ) : lookup k entries = lookup k entries' := by
  have hnodup' : (entries'.map Prod.fst).Nodup := (hperm.map Prod.fst).nodup_iff.1 hnodup
  cases h : lookup k entries with
  | none =>
    rw [lookup_eq_none_iff] at h
    exact (lookup_eq_none_iff.2 fun hmem => h ((hperm.map Prod.fst).mem_iff.2 hmem)).symm
  | some a => exact (lookup_of_mem hnodup' (hperm.mem_iff.1 (mem_of_lookup h))).symm

/-- Entries that are inserted one after the other hide those below them. -/
theorem get?_foldl_insert (hnodup : (entries.map Prod.fst).Nodup) (t : Table κ α) (k : κ) :
    (entries.foldl (fun t (k, a) => t.insert k a) t).get? k = (lookup k entries).or (t.get? k) := by
  induction entries generalizing t with
  | nil => rfl
  | cons e rest ih =>
    obtain ⟨k', a'⟩ := e
    obtain ⟨hfresh, hrest⟩ := List.nodup_cons.1 hnodup
    rw [List.foldl_cons, ih hrest, get?_insert, lookup]
    by_cases heq : k' = k
    · subst heq
      rw [if_pos rfl, if_pos rfl, lookup_eq_none_iff.2 hfresh]
      rfl
    · rw [if_neg heq, if_neg heq]

/-- Only a key that neither the table nor the entries have is without a value behind the insertion,
whether or not a key is listed twice. -/
theorem get?_foldl_insert_eq_none_iff (t : Table κ α) :
    (entries.foldl (fun t (k, a) => t.insert k a) t).get? k = none ↔
      lookup k entries = none ∧ t.get? k = none := by
  induction entries generalizing t with
  | nil =>
    show t.get? k = none ↔ none = none ∧ t.get? k = none
    exact (and_iff_right rfl).symm
  | cons e rest ih =>
    obtain ⟨k', a'⟩ := e
    rw [List.foldl_cons, ih, get?_insert, lookup]
    by_cases heq : k' = k
    · rw [if_pos heq, if_pos heq]
      simp
    · rw [if_neg heq, if_neg heq]

/-- A new key goes to the end; a key that is there keeps its place. -/
theorem map_fst_put (k : κ) (a : α) (entries : List (κ × α)) :
    (put k a entries).map Prod.fst =
      if k ∈ entries.map Prod.fst then entries.map Prod.fst else entries.map Prod.fst ++ [k] := by
  induction entries with
  | nil => rfl
  | cons e rest ih =>
    obtain ⟨k', a'⟩ := e
    by_cases heq : k' = k
    · subst heq
      simp [put]
    · rw [put, if_neg heq, List.map_cons, ih]
      simp only [List.map_cons, List.mem_cons, Ne.symm heq, false_or]
      split
      · rfl
      · rfl

/-- An insertion keeps the keys different. -/
theorem nodup_keys_insert (h : t.keys.Nodup) (k : κ) (a : α) : (t.insert k a).keys.Nodup := by
  rw [keys, insert, map_fst_put]
  split
  · exact h
  · next hfresh => exact List.nodup_append.2 ⟨h, List.nodup_singleton k, by
      rintro k₁ hk₁ k₂ hk₂ rfl
      exact hfresh (List.mem_singleton.1 hk₂ ▸ hk₁)⟩

/-- Many insertions keep the keys different. -/
theorem nodup_keys_foldl_insert (h : t.keys.Nodup) (entries : List (κ × α)) :
    (entries.foldl (fun t (k, a) => t.insert k a) t).keys.Nodup := by
  induction entries generalizing t with
  | nil => exact h
  | cons e rest ih => exact ih (nodup_keys_insert h e.1 e.2)

end Table

end Retrace
