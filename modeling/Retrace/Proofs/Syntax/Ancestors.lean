import Mathlib.Data.ENat.Lattice
import Mathlib.Data.Set.Card
import Retrace.Syntax.Enclosing

/-!
# The nearest annotated ancestor

Parents are any relation, and what they lead to from a node is a chain of ancestors that may end, go
on forever or come back to where it was. The search for an annotation walks along this chain, and
nothing but its limit makes it end.

An ancestor is inspected if it is within the limit and none before it is annotated
(`lt_inspected_iff`). So the number of inspected nodes is the least of three numbers, of which two may
be infinite, and the answer is the nearest annotation if that is within the limit
(`enclosingFunction_nearest`). What is further away has no influence (`nearestWithin_congr`).
-/

namespace Retrace.Syntax

variable {ν φ : Type} {parent : ν → Option ν} {functionOf functionOf' : ν → Option φ} {node above : ν}
  {limit i : Nat} {f : φ}

/-! ## Chains of ancestors -/

/-- The `i`-th ancestor of a node, if its chain of ancestors is that long. The node itself is the
0-th. -/
def ancestor (parent : ν → Option ν) : Nat → ν → Option ν
  | 0, node => some node
  | i + 1, node => (parent node).bind (ancestor parent i)

/-- The annotation of the `i`-th ancestor. -/
def annotationAt (parent : ν → Option ν) (functionOf : ν → Option φ) (node : ν) (i : Nat) :
    Option φ :=
  (ancestor parent i node).bind functionOf

/-- How many ancestors a node has, itself included. -/
noncomputable def chainLength (parent : ν → Option ν) (node : ν) : ℕ∞ :=
  {i | (ancestor parent i node).isSome}.encard

/-- How far it is to the nearest annotated ancestor; infinitely far if there is none. -/
noncomputable def nearestDistance (parent : ν → Option ν) (functionOf : ν → Option φ) (node : ν) :
    ℕ∞ :=
  ⨅ (i : Nat) (_ : annotationAt parent functionOf node i ≠ none), (i : ℕ∞)

/-- The ancestors of a node, further up, are those of its parent. -/
theorem ancestor_succ_of_parent (h : parent node = some above) (i : Nat) :
    ancestor parent (i + 1) node = ancestor parent i above := by
  rw [ancestor, h]
  rfl

/-- A root has none. -/
theorem ancestor_succ_of_root (h : parent node = none) (i : Nat) :
    ancestor parent (i + 1) node = none := by
  rw [ancestor, h]
  rfl

theorem annotationAt_zero : annotationAt parent functionOf node 0 = functionOf node := rfl

/-- What is annotated further up is what is annotated above the parent. -/
theorem annotationAt_succ_of_parent (h : parent node = some above) (i : Nat) :
    annotationAt parent functionOf node (i + 1) = annotationAt parent functionOf above i := by
  rw [annotationAt, ancestor_succ_of_parent h]
  rfl

/-- Above a root nothing is annotated. -/
theorem annotationAt_succ_of_root (h : parent node = none) (i : Nat) :
    annotationAt parent functionOf node (i + 1) = none := by
  rw [annotationAt, ancestor_succ_of_root h]
  rfl

/-- A chain has no gaps. -/
theorem isSome_ancestor_of_le {j : Nat} (hij : i ≤ j) (h : (ancestor parent j node).isSome) :
    (ancestor parent i node).isSome := by
  induction i generalizing j node with
  | zero => rfl
  | succ i ih =>
    obtain ⟨j, rfl⟩ := Nat.exists_eq_add_of_le' (Nat.lt_of_lt_of_le (Nat.succ_pos i) hij)
    cases hparent : parent node with
    | none =>
      rw [ancestor_succ_of_root hparent] at h
      cases h
    | some above =>
      rw [ancestor_succ_of_parent hparent] at h ⊢
      exact ih (Nat.le_of_succ_le_succ hij) h

/-- The chain of parents is longer than `i` if there is an ancestor that far up. -/
theorem lt_chainLength_iff :
    (i : ℕ∞) < chainLength parent node ↔ (ancestor parent i node).isSome := by
  constructor
  · intro h
    by_contra hnone
    -- all ancestors are among the first `i`
    have hsub : {j | (ancestor parent j node).isSome} ⊆ (Finset.range i : Set Nat) := by
      intro j hj
      rw [Finset.coe_range, Set.mem_Iio]
      by_contra hle
      exact hnone (isSome_ancestor_of_le (Nat.le_of_not_lt hle) hj)
    have hle := Set.encard_le_encard hsub
    rw [Set.encard_coe_eq_coe_finsetCard, Finset.card_range] at hle
    exact absurd h (not_lt.2 hle)
  · intro h
    have hsub : (Finset.range (i + 1) : Set Nat) ⊆ {j | (ancestor parent j node).isSome} := by
      intro j hj
      rw [Finset.coe_range, Set.mem_Iio] at hj
      exact isSome_ancestor_of_le (Nat.le_of_lt_succ hj) h
    have hle := Set.encard_le_encard hsub
    rw [Set.encard_coe_eq_coe_finsetCard, Finset.card_range] at hle
    exact lt_of_lt_of_le (Nat.cast_lt.2 (Nat.lt_succ_self i)) hle

/-- The nearest function is at least `i` up if there is none nearer. -/
theorem le_nearestDistance_iff : (i : ℕ∞) ≤ nearestDistance parent functionOf node ↔
    ∀ j < i, annotationAt parent functionOf node j = none := by
  rw [nearestDistance, le_iInf₂_iff]
  constructor
  · intro h j hj
    by_contra hannotated
    exact absurd (Nat.cast_le.1 (h j hannotated)) (Nat.not_le.2 hj)
  · intro h j hannotated
    by_contra hlt
    exact hannotated (h j (Nat.cast_lt.1 (not_le.1 hlt)))

/-! ## The search along the chain -/

/-- The search stops at a node that is annotated. -/
theorem nearestWithin_of_annotated (h : functionOf node = some f) (limit : Nat) :
    nearestWithin parent functionOf (limit + 1) node = (some f, 1) := by
  rw [nearestWithin, h]

/-- It stops at a root too. -/
theorem nearestWithin_of_root (h : functionOf node = none) (hparent : parent node = none)
    (limit : Nat) : nearestWithin parent functionOf (limit + 1) node = (none, 1) := by
  rw [nearestWithin, h, hparent]

/-- Otherwise it goes on to the parent, and has inspected one node more. -/
theorem nearestWithin_of_parent (h : functionOf node = none) (hparent : parent node = some above)
    (limit : Nat) : nearestWithin parent functionOf (limit + 1) node =
      ((nearestWithin parent functionOf limit above).1,
        (nearestWithin parent functionOf limit above).2 + 1) := by
  rw [nearestWithin, h, hparent]

/-- What is found is the nearest annotation, if it is within the limit. -/
theorem nearestWithin_fst_eq_some_iff : (nearestWithin parent functionOf limit node).1 = some f ↔
    ∃ i < limit, annotationAt parent functionOf node i = some f ∧
      ∀ j < i, annotationAt parent functionOf node j = none := by
  induction limit generalizing node with
  | zero =>
    constructor
    · intro h
      cases h
    · rintro ⟨i, hi, -⟩
      exact absurd hi (Nat.not_lt_zero i)
  | succ limit ih =>
    -- the node itself, or the nodes above it
    rw [Nat.exists_lt_succ_left]
    simp only [Nat.forall_lt_succ_left]
    rw [annotationAt_zero]
    cases hnode : functionOf node with
    | some g =>
      rw [nearestWithin_of_annotated hnode]
      simp
    | none =>
      cases hparent : parent node with
      | none =>
        rw [nearestWithin_of_root hnode hparent]
        simp [annotationAt_succ_of_root hparent]
      | some above =>
        rw [nearestWithin_of_parent hnode hparent]
        simp [annotationAt_succ_of_parent hparent, ih]

/-- Nothing is found if there is no annotation within the limit. -/
theorem nearestWithin_fst_eq_none_iff : (nearestWithin parent functionOf limit node).1 = none ↔
    ∀ i < limit, annotationAt parent functionOf node i = none := by
  classical
  constructor
  · intro hnone i hi
    by_contra hannotated
    have hexists : ∃ j, annotationAt parent functionOf node j ≠ none := ⟨i, hannotated⟩
    obtain ⟨f, hf⟩ := Option.ne_none_iff_exists'.1 (Nat.find_spec hexists)
    have hnearest : ∀ j < Nat.find hexists, annotationAt parent functionOf node j = none := by
      intro j hj
      exact not_not.1 (Nat.find_min hexists hj)
    have hwithin : Nat.find hexists < limit :=
      Nat.lt_of_le_of_lt (Nat.find_min' hexists hannotated) hi
    have hfound := nearestWithin_fst_eq_some_iff.2 ⟨_, hwithin, hf, hnearest⟩
    cases hnone.symm.trans hfound
  · intro hnone
    by_contra hfound
    obtain ⟨f, hf⟩ := Option.ne_none_iff_exists'.1 hfound
    obtain ⟨i, hi, hannotated, -⟩ := nearestWithin_fst_eq_some_iff.1 hf
    cases (hnone i hi).symm.trans hannotated

/-- The search starts with the node itself. -/
theorem inspected_pos (limit : Nat) : 0 < (nearestWithin parent functionOf (limit + 1) node).2 := by
  rw [nearestWithin]
  cases functionOf node with
  | some f => exact Nat.one_pos
  | none =>
    cases parent node with
    | none => exact Nat.one_pos
    | some above => exact Nat.succ_pos _

/-- An ancestor is inspected if it is within the limit and none before it is annotated. -/
theorem lt_inspected_iff : i < (nearestWithin parent functionOf limit node).2 ↔
    i < limit ∧ (ancestor parent i node).isSome ∧
      ∀ j < i, annotationAt parent functionOf node j = none := by
  induction limit generalizing node i with
  | zero =>
    have hzero : (nearestWithin parent functionOf 0 node).2 = 0 := rfl
    rw [hzero]
    simp
  | succ limit ih =>
    cases i with
    | zero =>
      have hnone : ∀ j < 0, annotationAt parent functionOf node j = none := fun j hj =>
        absurd hj (Nat.not_lt_zero j)
      exact iff_of_true (inspected_pos limit) ⟨Nat.succ_pos limit, rfl, hnone⟩
    | succ i =>
      -- one step up: the node itself is not annotated, and the rest is told of its parent
      rw [Nat.forall_lt_succ_left, annotationAt_zero]
      cases hnode : functionOf node with
      | some g =>
        rw [nearestWithin_of_annotated hnode]
        simp
      | none =>
        cases hparent : parent node with
        | none =>
          rw [nearestWithin_of_root hnode hparent]
          simp [ancestor_succ_of_root hparent]
        | some above =>
          rw [nearestWithin_of_parent hnode hparent]
          simp [ancestor_succ_of_parent hparent, annotationAt_succ_of_parent hparent, ih]

/-- Two lengths, possibly infinite, are equal if the same numbers are below them. -/
theorem eq_of_forall_natCast_lt_iff {a b : ℕ∞} (h : ∀ n : Nat, (n : ℕ∞) < a ↔ (n : ℕ∞) < b) :
    a = b := by
  apply ENat.eq_of_forall_natCast_le_iff
  intro n
  cases n with
  | zero => exact iff_of_true zero_le zero_le
  | succ n =>
    rw [Nat.cast_succ, ENat.add_one_le_iff (ENat.natCast_ne_top n),
      ENat.add_one_le_iff (ENat.natCast_ne_top n)]
    exact h n

/-- The nodes that are inspected go up to the nearest function, the end of the chain, or the limit,
whichever comes first. -/
theorem inspected_eq_min (parent : ν → Option ν) (functionOf : ν → Option φ) (limit : Nat)
    (node : ν) : ((nearestWithin parent functionOf limit node).2 : ℕ∞) =
      min (nearestDistance parent functionOf node + 1) (min (chainLength parent node) limit) := by
  apply eq_of_forall_natCast_lt_iff
  intro i
  rw [lt_min_iff, lt_min_iff, ENat.natCast_lt_add_one_iff, le_nearestDistance_iff, lt_chainLength_iff,
    Nat.cast_lt, Nat.cast_lt, lt_inspected_iff]
  constructor
  · rintro ⟨hlimit, hexists, hnone⟩
    exact ⟨hnone, hexists, hlimit⟩
  · rintro ⟨hnone, hexists, hlimit⟩
    exact ⟨hlimit, hexists, hnone⟩

/-- The annotations of nodes that were not inspected have no influence. -/
theorem nearestWithin_congr (h : ∀ i < (nearestWithin parent functionOf limit node).2,
    annotationAt parent functionOf' node i = annotationAt parent functionOf node i) :
    nearestWithin parent functionOf' limit node = nearestWithin parent functionOf limit node := by
  induction limit generalizing node with
  | zero => rfl
  | succ limit ih =>
    have hself : functionOf' node = functionOf node := h 0 (inspected_pos limit)
    cases hnode : functionOf node with
    | some f =>
      rw [nearestWithin_of_annotated hnode, nearestWithin_of_annotated (hself.trans hnode)]
    | none =>
      cases hparent : parent node with
      | none =>
        rw [nearestWithin_of_root hnode hparent,
          nearestWithin_of_root (hself.trans hnode) hparent]
      | some above =>
        rw [nearestWithin_of_parent hnode hparent] at h ⊢
        have habove : nearestWithin parent functionOf' limit above =
            nearestWithin parent functionOf limit above := by
          apply ih
          intro i hi
          have hsucc := h (i + 1) (Nat.succ_lt_succ hi)
          rwa [annotationAt_succ_of_parent hparent, annotationAt_succ_of_parent hparent] at hsucc
        rw [nearestWithin_of_parent (hself.trans hnode) hparent, habove]

/-! ## The function of a node -/

/-- For any parents and annotations, the function of a node is the nearest annotation among the 0-th to
the 999-th ancestor, and if none of them is annotated, there is none. The number of inspected nodes is
the least of the distance of the nearest annotation plus one, the length of the chain, and 1000; and
these are all the nodes whose annotations matter. -/
theorem enclosingFunction_nearest (parent : ν → Option ν) (functionOf : ν → Option φ) (node : ν) :
    (∀ f, (enclosingFunction parent functionOf node).1 = some f ↔
      ∃ i < 1000, annotationAt parent functionOf node i = some f ∧
        ∀ j < i, annotationAt parent functionOf node j = none) ∧
    ((enclosingFunction parent functionOf node).1 = none ↔
      ∀ i < 1000, annotationAt parent functionOf node i = none) ∧
    ((enclosingFunction parent functionOf node).2 : ℕ∞) =
      min (nearestDistance parent functionOf node + 1) (min (chainLength parent node) 1000) ∧
    (enclosingFunction parent functionOf node).2 ≤ 1000 ∧
    ∀ functionOf' : ν → Option φ,
      (∀ i < (enclosingFunction parent functionOf node).2,
        annotationAt parent functionOf' node i = annotationAt parent functionOf node i) →
      enclosingFunction parent functionOf' node = enclosingFunction parent functionOf node := by
  have hcount := inspected_eq_min parent functionOf inspectionLimit node
  have hle : ((enclosingFunction parent functionOf node).2 : ℕ∞) ≤ (inspectionLimit : ℕ∞) := by
    rw [enclosingFunction, hcount]
    exact (min_le_right _ _).trans (min_le_right _ _)
  refine ⟨?_, nearestWithin_fst_eq_none_iff, hcount, Nat.cast_le.1 hle, ?_⟩
  · intro f
    exact nearestWithin_fst_eq_some_iff
  · intro functionOf' hsame
    exact nearestWithin_congr hsame

end Retrace.Syntax
