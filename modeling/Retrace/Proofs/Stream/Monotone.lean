import Retrace.Proofs.Stream.Counterpart
import Retrace.Proofs.Stream.Source

/-!
# A later target is never found earlier

The searches of `Stream.Boundary` may be off by one, in a way that depends on how the halving rounds.
They are monotone in their targets nevertheless: wherever the halving lands, it lands no earlier for
a larger number of points in front of the target (`landing_mono`), and the rest of each answer is a
count.

* `firstBySource_mono`, `firstByOffset_mono`, `lastByOffset_mono` : the three searches;
* `counterpart_infix` : what is taken for a range of offsets is a part of what is taken for any range
  around it.
-/

namespace Retrace.Stream

/-- An index is at or before another one. No index counts as an index behind all of them. -/
def AtOrBefore : Option Nat → Option Nat → Prop
  | _, none => True
  | none, some _ => False
  | some i, some j => i ≤ j

/-- If a later answer is an index, so is an earlier one. -/
theorem AtOrBefore.exists_le {i? : Option Nat} {j : Nat} (h : AtOrBefore i? (some j)) :
    ∃ i, i? = some i ∧ i ≤ j := by
  cases i? with
  | none => exact absurd h id
  | some i => exact ⟨i, rfl, h⟩

/-- Two answers of a search that finds nothing behind the last point of a stream. -/
theorem atOrBefore_ite {n k l i j : Nat} (hl : l ≤ n) (hkl : k ≤ l) (hij : i ≤ j) :
    AtOrBefore (if k = n then none else some i) (if l = n then none else some j) := by
  by_cases hlast : l = n
  · rw [if_pos hlast]
    trivial
  · rw [if_neg hlast, if_neg (by omega)]
    exact hij

/-! ## Source positions -/

/-- A later line has no fewer points in front of it. -/
theorem countLinesBefore_mono (points : Stream) {l m : Nat} (h : l ≤ m) :
    points.countLinesBefore l ≤ points.countLinesBefore m := by
  refine List.countP_mono_left fun p _ hp => ?_
  simp only [decide_eq_true_eq] at hp ⊢
  omega

/-- A later position has no fewer points at or in front of it. -/
theorem countBehind_mono (points : Stream) {p q : LinePosition} (h : p ≤ q) :
    points.countBehind p ≤ points.countBehind q := by
  refine List.countP_mono_left fun r _ hr => ?_
  simp only [decide_eq_true_eq] at hr ⊢
  exact LinePosition.le_trans hr h

/-- The search by source ends no earlier for a later position. -/
theorem sourceIndex_mono (points : Stream) {p q : LinePosition} (h : p ≤ q) :
    points.sourceIndex p ≤ points.sourceIndex q := by
  have hlines := points.countLinesBefore_mono (LinePosition.line_le h)
  have hland := landing_mono hlines (points.countLinesBefore_le_length q.line)
  have hbehind := points.countBehind_mono h
  rw [sourceIndex, sourceIndex]
  omega

/-- What the search by source finds is no earlier for a later position. -/
theorem firstBySource_mono {points : Stream} (h : points.InSourceOrder) {p q : LinePosition}
    (hle : p ≤ q) : AtOrBefore (firstBySource points p) (firstBySource points q) := by
  match points, h with
  | [], _ => trivial
  | [_], _ => exact Nat.le_refl 0
  | r :: s :: rest, h =>
    rw [firstBySource_eq h (by simp), firstBySource_eq h (by simp)]
    exact atOrBefore_ite (countLinesBefore_le_length _ _)
      (countLinesBefore_mono _ (LinePosition.line_le hle)) (sourceIndex_mono _ hle)

/-! ## IL offsets -/

/-- The search by offset ends no earlier for a later offset. -/
theorem InOffsetOrder.boundaryIndex_mono {points : Stream} (h : points.InOffsetOrder) {s t : Nat}
    (hle : s ≤ t) : points.boundaryIndex s ≤ points.boundaryIndex t := by
  have hcount := points.countBefore_mono hle
  have hs := points.boundaryIndex_cases s
  have ht := points.boundaryIndex_cases t
  rcases Nat.eq_or_lt_of_le hle with rfl | hlt
  · exact Nat.le_refl _
  rcases Nat.eq_or_lt_of_le hcount with heq | hmore
  · -- no point lies between the targets, so none starts at `s`, and both halvings land alike
    have hnone : ¬ points.StartsAt s := fun hstarts => by
      have := hstarts.countBefore_lt h hlt
      omega
    have hindex : points.boundaryIndex s = landing (points.countBefore t) points.length := by
      rw [boundaryIndex, if_neg hnone, heq]
    have hland := landing_cases (points.countBefore_le_length t)
    rw [hindex, boundaryIndex]
    split
    · omega
    · exact Nat.le_refl _
  · omega

/-- The first point that is found is no earlier for a later offset. -/
theorem firstByOffset_mono {points : Stream} (h : points.InOffsetOrder) {s t : Nat} (hle : s ≤ t) :
    AtOrBefore (firstByOffset points s) (firstByOffset points t) := by
  match points, h with
  | [], _ => trivial
  | [_], _ => exact Nat.le_refl 0
  | p :: q :: rest, h =>
    rw [firstByOffset_eq h (by simp), firstByOffset_eq h (by simp)]
    exact atOrBefore_ite (countBefore_le_length _ _)
      (countBefore_mono _ hle) (h.boundaryIndex_mono hle)

/-- The last point that is found is no earlier for a later offset, and is found for both or for
neither. -/
theorem lastByOffset_mono {points : Stream} (h : points.InOffsetOrder) {s t : Nat} (hle : s ≤ t) :
    Option.Rel (· ≤ ·) (lastByOffset points s) (lastByOffset points t) := by
  by_cases hne : points = []
  · subst hne
    exact .none
  · rw [lastByOffset_eq h hne, lastByOffset_eq h hne]
    have := points.countBefore_mono hle
    exact .some (by omega)

/-! ## Counterparts -/

/-- The bounds of a range are what both searches find, if they are in order. -/
theorem offsetBounds?_eq_some_iff {points : Stream} {start stop i j : Nat} :
    offsetBounds? points start stop = some (i, j) ↔
      ∃ last, firstByOffset points start = some i ∧ lastByOffset points stop = some last ∧
        i ≤ last ∧ j = last + 1 := by
  unfold offsetBounds?
  cases firstByOffset points start with
  | none => simp
  | some first =>
    cases lastByOffset points stop with
    | none => simp
    | some last =>
      by_cases hle : first ≤ last
      · simp only [if_pos hle, Option.some.injEq, Prod.mk.injEq]
        constructor
        · rintro ⟨rfl, rfl⟩
          exact ⟨last, rfl, rfl, hle, rfl⟩
        · rintro ⟨last, rfl, rfl, -, rfl⟩
          exact ⟨rfl, rfl⟩
      · simp only [if_neg hle, Option.some.injEq]
        constructor
        · intro h
          cases h
        · rintro ⟨last, rfl, rfl, hle', -⟩
          exact absurd hle' hle

/-- The bounds for a range lie between those for a range around it. -/
theorem InOffsetOrder.offsetBounds?_nested {points : Stream} (h : points.InOffsetOrder)
    {s e s' e' i j : Nat} (hs : s' ≤ s) (he : e ≤ e')
    (hbounds : offsetBounds? points s e = some (i, j)) :
    ∃ i' j', offsetBounds? points s' e' = some (i', j') ∧ i' ≤ i ∧ j ≤ j' := by
  obtain ⟨last, hfirst, hlast, hle, rfl⟩ := offsetBounds?_eq_some_iff.1 hbounds
  have hfirst' := firstByOffset_mono h hs
  rw [hfirst] at hfirst'
  obtain ⟨i', hi', hii⟩ := hfirst'.exists_le
  have hlast' := lastByOffset_mono h he
  rw [hlast] at hlast'
  obtain ⟨last', hl', hll⟩ : ∃ last', lastByOffset points e' = some last' ∧ last ≤ last' := by
    generalize lastByOffset points e' = l? at hlast'
    cases hlast' with
    | some hll => exact ⟨_, rfl, hll⟩
  exact ⟨i', last' + 1, offsetBounds?_eq_some_iff.2 ⟨last', hi', hl', by omega, rfl⟩, hii, by omega⟩

/-- A run with narrower bounds is part of one with wider bounds. -/
theorem run_infix_run (points : Stream) {i j i' j' : Nat} (hi : i' ≤ i) (hj : j ≤ j') :
    run points i j <:+: run points i' j' := by
  have hprefix : run points i j <+: run points i j' := List.take_prefix_take_left (by omega)
  exact hprefix.isInfix.trans (run_suffix_run points hi j').isInfix

/-- What is taken for a range of offsets is a part of what is taken for a range around it. -/
theorem InOffsetOrder.counterpart_infix {narrow wide haystack : Stream} {s e s' e' : Nat}
    (h : haystack.InOffsetOrder) (hnarrow : narrow.offsets? = some (s, e))
    (hwide : wide.offsets? = some (s', e')) (hs : s' ≤ s) (he : e ≤ e') :
    counterpart narrow haystack <:+: counterpart wide haystack := by
  rw [counterpart_eq_offsetBounds hnarrow, counterpart_eq_offsetBounds hwide]
  rcases hbounds : offsetBounds? haystack s e with _ | ⟨i, j⟩
  · exact List.nil_infix
  · obtain ⟨i', j', hbounds', hi, hj⟩ := h.offsetBounds?_nested hs he hbounds
    rw [hbounds']
    exact run_infix_run haystack hi hj

/-- Moving a target toward the end never moves what is found toward the start, and widening a range of
offsets from a stream in order only adds points at both ends of what is taken for it. -/
theorem mono_of_target (points : Stream) :
    (points.InSourceOrder → ∀ {p q : LinePosition}, p ≤ q →
      AtOrBefore (firstBySource points p) (firstBySource points q)) ∧
    (points.InOffsetOrder → ∀ {s t : Nat}, s ≤ t →
      AtOrBefore (firstByOffset points s) (firstByOffset points t) ∧
        Option.Rel (· ≤ ·) (lastByOffset points s) (lastByOffset points t)) ∧
    (points.InOffsetOrder → ∀ {narrow wide : Stream} {s e s' e' : Nat},
      narrow.offsets? = some (s, e) → wide.offsets? = some (s', e') → s' ≤ s → e ≤ e' →
      counterpart narrow points <:+: counterpart wide points) :=
  ⟨fun h _ _ hle => firstBySource_mono h hle,
    fun h _ _ hle => ⟨firstByOffset_mono h hle, lastByOffset_mono h hle⟩,
    fun h _ _ _ _ _ _ hnarrow hwide hs he => h.counterpart_infix hnarrow hwide hs he⟩

/-- Three points, targets off their starts, and a range inside of another one. -/
theorem mono_of_target_of_three :
    let points : Stream := [bare 0 1, bare 5 7, bare 9 12]
    points.InSourceOrder ∧ (⟨0, 4⟩ : LinePosition) ≤ ⟨1, 2⟩ ∧
      AtOrBefore (firstBySource points ⟨0, 4⟩) (firstBySource points ⟨1, 2⟩) ∧
      points.InOffsetOrder ∧ 3 ≤ 6 ∧ AtOrBefore (firstByOffset points 3) (firstByOffset points 6) ∧
      offsets? [bare 6 8] = some (6, 8) ∧ offsets? [bare 3 6, bare 6 10] = some (3, 10) ∧
      counterpart [bare 6 8] points <:+: counterpart [bare 3 6, bare 6 10] points := by
  intro points
  have hsource : points.InSourceOrder := by decide
  have hoffset : points.InOffsetOrder := by decide
  have hle : (⟨0, 4⟩ : LinePosition) ≤ ⟨1, 2⟩ := by decide
  obtain ⟨hbySource, hbyOffset, hcounterpart⟩ := mono_of_target points
  exact ⟨hsource, hle, hbySource hsource hle, hoffset, by decide, (hbyOffset hoffset (by decide)).1,
    rfl, rfl, hcounterpart hoffset rfl rfl (by decide) (by decide)⟩

end Retrace.Stream
