import Retrace.Proofs.Json.RoundTrip
import Mathlib.Data.String.Basic

/-!
# Values that are kept

Where a reader keeps a value as it is, it holds integers of 64 bits, limits how deep containers lie
inside each other, and sorts the members of objects. A value that respects this (`Storable`) is read
back from its tree unchanged (`value?_treeOf`). Members are put in order by sorted insertion, so any
list of pairs becomes sorted (`sorted_ofList`), and sorted members stay as they are
(`Sorted.ofList_eq`).
-/

namespace Retrace.Json

namespace Members

/-- The keys of the members increase. -/
def Sorted (members : Members) : Prop := members.Pairwise fun a b => a.1 < b.1

/-- Inserted members are the new one and some of the old ones. -/
theorem mem_of_mem_insert {key : String} {value : Json} {members : Members} {m : String × Json}
    (h : m ∈ insert key value members) : m = (key, value) ∨ m ∈ members := by
  induction members with
  | nil => exact .inl (List.mem_singleton.1 h)
  | cons first rest ih =>
    obtain ⟨k, v⟩ := first
    rw [insert] at h
    split at h
    · exact List.mem_cons.1 h
    · split at h
      · exact (List.mem_cons.1 h).imp id (List.mem_cons_of_mem _)
      · rcases List.mem_cons.1 h with rfl | hrest
        · exact .inr List.mem_cons_self
        · exact (ih hrest).imp id (List.mem_cons_of_mem _)

/-- An insertion keeps the keys in order. -/
theorem Sorted.insert {members : Members} (h : members.Sorted) (key : String) (value : Json) :
    (insert key value members).Sorted := by
  induction members with
  | nil => exact List.pairwise_singleton _ _
  | cons first rest ih =>
    obtain ⟨k, v⟩ := first
    obtain ⟨hfirst, hrest⟩ := List.pairwise_cons.1 h
    rw [Members.insert]
    split
    · next hbefore =>
      refine List.pairwise_cons.2 ⟨?_, h⟩
      rintro m hm
      rcases List.mem_cons.1 hm with rfl | hm
      · exact hbefore
      · exact lt_trans hbefore (hfirst m hm)
    · next hbefore =>
      split
      · next heq =>
        subst heq
        exact List.pairwise_cons.2 ⟨hfirst, hrest⟩
      · next hne =>
        -- the new key is behind the first one, and everything else was
        refine List.pairwise_cons.2 ⟨fun m hm => ?_, ih hrest⟩
        rcases mem_of_mem_insert hm with rfl | hm
        · exact lt_of_le_of_ne (not_lt.1 hbefore) (Ne.symm hne)
        · exact hfirst m hm

/-- The members of any list of pairs are sorted. -/
theorem sorted_ofList (pairs : List (String × Json)) : (ofList pairs).Sorted := by
  unfold ofList
  refine List.foldlRecOn pairs _ List.Pairwise.nil ?_
  intro members h pair _
  exact h.insert pair.1 pair.2

/-- The members of an object are among the pairs that it is made of. -/
theorem mem_of_mem_ofList {pairs : List (String × Json)} {m : String × Json}
    (h : m ∈ ofList pairs) : m ∈ pairs := by
  revert h
  refine List.foldlRecOn (motive := fun members => m ∈ members → m ∈ pairs) pairs _ ?_ ?_
  · intro h
    cases h
  · intro members ih pair hpair h
    rcases mem_of_mem_insert h with rfl | h
    · exact hpair
    · exact ih h

/-- A member behind all others is inserted at the end. -/
theorem insert_of_forall_lt {key : String} {value : Json} {members : Members}
    (h : ∀ m ∈ members, m.1 < key) : insert key value members = members ++ [(key, value)] := by
  induction members with
  | nil => rfl
  | cons first rest ih =>
    obtain ⟨k, v⟩ := first
    obtain ⟨hfirst, hrest⟩ := List.forall_mem_cons.1 h
    rw [insert, if_neg (lt_asymm hfirst), if_neg (ne_of_gt hfirst), ih hrest, List.cons_append]

/-- Sorted members are inserted one behind the other. -/
theorem foldl_insert_of_sorted {front rest : Members} (h : Sorted (front ++ rest)) :
    rest.foldl (fun members (key, value) => insert key value members) front = front ++ rest := by
  induction rest generalizing front with
  | nil => exact (List.append_nil front).symm
  | cons member rest ih =>
    obtain ⟨key, value⟩ := member
    have hlt : ∀ m ∈ front, m.1 < key := fun m hm =>
      (List.pairwise_append.1 h).2.2 m hm _ List.mem_cons_self
    rw [List.append_cons] at h
    rw [List.foldl_cons, List.append_cons]
    dsimp only
    rw [insert_of_forall_lt hlt, ih h]

/-- Sorted members stay as they are. -/
theorem Sorted.ofList_eq {members : Members} (h : members.Sorted) : ofList members = members :=
  have hall : Sorted ([] ++ members) := h
  foldl_insert_of_sorted hall

end Members

/-- A value that can be kept inside `depth` containers. -/
inductive Storable : Nat → Json → Prop
  | null {depth : Nat} : Storable depth .null
  | bool {depth : Nat} (value : Bool) : Storable depth (.bool value)
  | integer {depth : Nat} {value : Int} (h : Tree.isStored value) :
    Storable depth (.number (.integer value))
  | string {depth : Nat} (value : String) : Storable depth (.string value)
  | array {depth : Nat} {items : List Json} (room : depth < Tree.depthLimit)
    (h : ∀ v ∈ items, Storable (depth + 1) v) : Storable depth (.array items)
  | object {depth : Nat} {members : Members} (room : depth < Tree.depthLimit)
    (sorted : members.Sorted) (h : ∀ m ∈ members, Storable (depth + 1) m.2) :
    Storable depth (.object members)

/-- A value that can be kept has integers only. -/
theorem Storable.integral {depth : Nat} {v : Json} (h : v.Storable depth) : v.Integral := by
  induction h with
  | null => exact .null
  | bool value => exact .bool value
  | integer _ => exact .integer _
  | string value => exact .string value
  | array _ _ ih => exact .array ih
  | object _ _ _ ih => exact .object ih

namespace Tree

/-- An integer in the range that is stored is read as itself, from its own digits. -/
theorem numberOf_ofInt {value : Int} (h : isStored value) :
    numberOf (.ofInt value) = .integer value := by
  simp [numberOf, NumberLiteral.ofInt, Option.filter, h]

/-- If each item is read from its tree, so are all of them. -/
theorem values?_itemTrees {depth : Nat} {items : List Json}
    (h : ∀ v ∈ items, value? depth (treeOf v) = some v) :
    values? depth (itemTrees items) = some items := by
  induction items with
  | nil => rfl
  | cons item items ih =>
    obtain ⟨hitem, hitems⟩ := List.forall_mem_cons.1 h
    rw [itemTrees, values?, hitem, ih hitems]

/-- If each member is read from its tree, so are all of them. -/
theorem memberValues?_memberTrees {depth : Nat} {members : Members}
    (h : ∀ m ∈ members, value? depth (treeOf m.2) = some m.2) :
    memberValues? depth (memberTrees members) = some members := by
  induction members with
  | nil => rfl
  | cons member members ih =>
    obtain ⟨key, value⟩ := member
    obtain ⟨hvalue, hmembers⟩ := List.forall_mem_cons.1 h
    dsimp only at hvalue
    simp only [memberTrees, memberValues?, hvalue, ih hmembers]

/-- A value that can be kept is read back from its tree. -/
theorem value?_treeOf {depth : Nat} {v : Json} (h : v.Storable depth) :
    value? depth (treeOf v) = some v := by
  induction h with
  | null => rfl
  | bool value => rfl
  | integer h => exact congrArg (fun n => some (Json.number n)) (numberOf_ofInt h)
  | string value => rfl
  | array room _ ih => rw [treeOf, value?, if_pos room, values?_itemTrees ih, Option.map_some]
  | object room sorted _ ih =>
    rw [treeOf, value?, if_pos room, memberValues?_memberTrees ih, Option.map_some, sorted.ofList_eq]

/-- Members that can be kept are read back from the tree of their object. -/
theorem members?_treeOf {depth : Nat} {members : Members} (sorted : members.Sorted)
    (h : ∀ m ∈ members, m.2.Storable (depth + 1)) :
    members? depth (treeOf (.object members)) = some members := by
  rw [treeOf, members?, memberValues?_memberTrees fun m hm => value?_treeOf (h m hm),
    Option.map_some, sorted.ofList_eq]

end Tree

end Retrace.Json
