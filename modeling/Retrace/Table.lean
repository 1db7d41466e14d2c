/-!
# Tables

A `Table` maps keys to values and remembers in which order its keys were first inserted. Inserting
a known key replaces its value in place. `get?_insert` and `get?_erase` are the laws everything else
uses.
-/

namespace Retrace

/-- A finite map that keeps the order of insertion. -/
structure Table (κ α : Type) where
  entries : List (κ × α) := []

namespace Table

variable {κ α : Type} [DecidableEq κ]

/-- The value of the first entry with that key. -/
def lookup (k : κ) : List (κ × α) → Option α
  | [] => none
  | (k', a) :: rest => if k' = k then some a else lookup k rest

/-- Replaces the first entry with that key, or appends one. -/
def put (k : κ) (a : α) : List (κ × α) → List (κ × α)
  | [] => [(k, a)]
  | (k', a') :: rest => if k' = k then (k, a) :: rest else (k', a') :: put k a rest

/-- The value of a key. -/
def get? (t : Table κ α) (k : κ) : Option α := lookup k t.entries

/-- Sets the value of a key. -/
def insert (t : Table κ α) (k : κ) (a : α) : Table κ α := ⟨put k a t.entries⟩

/-- Removes a key and its value. -/
def erase (t : Table κ α) (k : κ) : Table κ α := ⟨t.entries.filter fun e => e.1 ≠ k⟩

/-- The keys in the order of their first insertion. -/
def keys (t : Table κ α) : List κ := t.entries.map (·.1)

/-- The number of keys. -/
def size (t : Table κ α) : Nat := t.entries.length

/-- The table of a list of pairs, where a later pair replaces an earlier one with the same key. -/
def ofList (pairs : List (κ × α)) : Table κ α :=
  pairs.foldl (fun t (k, a) => t.insert k a) {}

/-- To put an entry changes what is found for its key, and for no other one. -/
theorem lookup_put (k k' : κ) (a : α) (entries : List (κ × α)) :
    lookup k' (put k a entries) = if k = k' then some a else lookup k' entries := by
  induction entries with
  | nil => simp [put, lookup]
  | cons e rest ih =>
    obtain ⟨k₀, a₀⟩ := e
    by_cases h : k₀ = k
    · subst h
      simp only [put, if_true, lookup]
      split <;> rfl
    · by_cases h' : k₀ = k'
      · subst h'
        have : ¬ k = k₀ := fun e => h e.symm
        simp [put, lookup, h, this]
      · simp [put, lookup, h, h', ih]

@[simp] theorem get?_empty (k : κ) : ({} : Table κ α).get? k = none := rfl

/-- An insertion changes what is found for its key, and for no other one. -/
theorem get?_insert (t : Table κ α) (k k' : κ) (a : α) :
    (t.insert k a).get? k' = if k = k' then some a else t.get? k' :=
  lookup_put k k' a t.entries

/-- Without the entries of a key nothing is found for it, and the same as before for all others. -/
theorem lookup_filter_ne (k k' : κ) (entries : List (κ × α)) :
    lookup k' (entries.filter fun e => e.1 ≠ k) = if k = k' then none else lookup k' entries := by
  induction entries with
  | nil => simp [lookup]
  | cons e rest ih =>
    obtain ⟨k₀, a₀⟩ := e
    by_cases h : k₀ = k
    · subst h
      by_cases h' : k₀ = k'
      · simpa [lookup, h'] using ih
      · simpa [lookup, h'] using ih
    · by_cases h' : k₀ = k'
      · subst h'
        have : ¬ k = k₀ := fun e => h e.symm
        simp [lookup, h, this]
      · simpa [lookup, h, h'] using ih

/-- An erasure leaves nothing for its key, and everything else as it was. -/
theorem get?_erase (t : Table κ α) (k k' : κ) :
    (t.erase k).get? k' = if k = k' then none else t.get? k' :=
  lookup_filter_ne k k' t.entries

end Table

end Retrace
