import Retrace.Proofs.Stream.Monotone

/-!
# The searches stay in the stream

No order of the points is assumed here. A search looks at points by index, and an index outside of the
stream would make it `none` as a whole. It never does that:

* `exists_probe` : whatever way the binary phase turns, its interval lies in the stream, and it ends on
  a cursor, which is the index of a point or the one behind the last point;
* `exists_walkLater`, `exists_walkEarlier` : a walk that starts on a cursor ends on one;
* `exists_boundary` : so do both phases one after the other.

Every index that is returned, and with it every run that is cut out of a stream, is therefore inside.
-/

namespace Retrace.Stream

variable {points : Stream}

/-- The index of a point, or the one behind the last point. -/
def IsCursor (points : Stream) (index : Int) : Prop := 0 ≤ index ∧ index ≤ points.length

/-- An index in the bounds has a point. -/
theorem exists_pointAt? (points : Stream) {index : Int} (h₀ : 0 ≤ index) (hlt : index < points.length) :
    ∃ p, pointAt? points index = some p := by
  obtain ⟨i, rfl⟩ := Int.eq_ofNat_of_zero_le h₀
  rw [pointAt?_natCast]
  exact ⟨_, List.getElem?_eq_getElem (by omega)⟩

/-! ## The two phases -/

/-- The binary phase halves an interval of the stream to the end, and ends on a cursor. The right end
may step one below the left one, but not further. -/
theorem exists_probe (points : Stream) (turn : SequencePoint → Turn) {left right : Int}
    (current : SequencePoint) (h₀ : 0 ≤ left) (hlr : left ≤ right + 1) (hr : right ≤ points.length) :
    ∃ p, probe points turn left right current = some p ∧ points.IsCursor p.middle := by
  fun_induction probe points turn left right current with
  | case1 left right current h hp =>
    -- there is a point in the middle of an interval that is not empty
    have hlower := left_le_middle h
    have hupper := middle_lt_right h₀ h
    obtain ⟨p, hsome⟩ := exists_pointAt? points (Int.le_trans h₀ hlower) (by omega)
    rw [hp] at hsome
    cases hsome
  | case2 left right current h p hp hlower _ _ ih =>
    have hupper := middle_lt_right h₀ h
    exact ih (by omega) (by omega) hr
  | case3 left right current h p hp hlower _ _ ih =>
    have hupper := middle_lt_right h₀ h
    exact ih h₀ (by omega) (by omega)
  | case4 left right current h p hp hlower _ _ =>
    have hupper := Int.le_of_lt (middle_lt_right h₀ h)
    exact ⟨_, rfl, Int.le_trans h₀ hlower, Int.le_trans hupper hr⟩
  | case5 left right current h =>
    have hempty := middle_of_le h₀ (by omega) hlr
    have hcursor : points.IsCursor (middle left right) := ⟨by omega, by omega⟩
    exact ⟨_, rfl, hcursor⟩

/-- A walk toward the end that takes a step, or that does not start on the first point, ends on a
cursor. -/
theorem exists_walkLater {ahead : SequencePoint → Bool} {index : Int} {current : SequencePoint}
    (hindex : points.IsCursor index) (hsteps : ahead current = true ∨ 0 < index) :
    ∃ stop, walkLater points ahead index current = some stop ∧ points.IsCursor stop := by
  obtain ⟨h₀, hle⟩ := hindex
  fun_induction walkLater points ahead index current with
  | case1 index current h hlt hp =>
    have hnext : 0 ≤ index + 1 := by omega
    obtain ⟨p, hsome⟩ := exists_pointAt? points hnext hlt
    rw [hp] at hsome
    cases hsome
  | case2 index current h hlt p hp ih =>
    exact ih (Or.inr (by omega)) (by omega) (by omega)
  | case3 index current h hlt => exact ⟨_, rfl, h₀, hle⟩
  | case4 index current h =>
    have hpos := hsteps.resolve_left h
    exact ⟨_, rfl, by omega, by omega⟩

/-- A walk toward the start that takes a step, or that does not start behind the last point, ends on a
cursor. -/
theorem exists_walkEarlier {reached : SequencePoint → Bool} {index : Int} {current : SequencePoint}
    (hindex : points.IsCursor index) (hsteps : reached current = false ∨ index < points.length) :
    ∃ stop, walkEarlier points reached index current = some stop ∧ points.IsCursor stop := by
  obtain ⟨h₀, hle⟩ := hindex
  fun_induction walkEarlier points reached index current with
  | case1 index current h =>
    have hlt := hsteps.resolve_left (by simp [h])
    exact ⟨_, rfl, by omega, by omega⟩
  | case2 index current h hpos hp =>
    have hnext : 0 ≤ index - 1 := by omega
    obtain ⟨p, hsome⟩ := exists_pointAt? points hnext (by omega)
    rw [hp] at hsome
    cases hsome
  | case3 index current h hpos p hp ih =>
    exact ih (Or.inr (by omega)) (by omega) (by omega)
  | case4 index current h hpos => exact ⟨_, rfl, h₀, hle⟩

/-- Both phases end on a cursor, if the walk takes a step in the direction that the point looked at
last decides. -/
theorem exists_boundary (hne : points ≠ []) (turn : SequencePoint → Turn)
    {isBehind ahead reached : SequencePoint → Bool}
    (hahead : ∀ p, isBehind p = true → ahead p = true)
    (hreached : ∀ p, isBehind p = false → reached p = false) :
    ∃ index, boundary points turn isBehind ahead reached = some index ∧ points.IsCursor index := by
  have hpos : 0 < points.length := List.length_pos_iff.2 hne
  have hlt : (0 : Int) < points.length := by omega
  obtain ⟨first, hfirst⟩ := exists_pointAt? points (left_le_middle hlt)
    (middle_lt_right (Int.le_refl 0) hlt)
  obtain ⟨p, hprobe, hcursor⟩ := exists_probe points turn first (Int.le_refl 0) (by omega)
    (Int.le_refl _)
  unfold boundary
  simp only [hfirst, hprobe]
  split
  · next hbehind => exact exists_walkLater hcursor (Or.inl (hahead _ hbehind))
  · next hbehind =>
    exact exists_walkEarlier hcursor (Or.inl (hreached _ (Bool.eq_false_iff.2 hbehind)))

/-- The search by source ends at a cursor of the stream, whether or not it is in order. -/
theorem exists_sourceBoundary (hne : points ≠ []) (position : LinePosition) :
    ∃ index, sourceBoundary points position = some index ∧ points.IsCursor index :=
  exists_boundary hne _ (fun _ => id) (fun _ => id)

/-- The search by offset ends at a cursor of the stream, whether or not it is in order. -/
theorem exists_offsetBoundary (hne : points ≠ []) (target : Nat) :
    ∃ index, offsetBoundary points target = some index ∧ points.IsCursor index := by
  refine exists_boundary hne _ (fun p hlt => ?_) (fun _ => id)
  simp only [decide_eq_true_eq] at hlt ⊢
  exact Nat.le_of_lt hlt

/-! ## What is returned -/

/-- An index that is given out is in the bounds. -/
theorem lt_length_of_bind_indexIn {index? : Option Int} {i : Nat}
    (h : index?.bind (indexIn points) = some i) : i < points.length := by
  obtain ⟨index, -, hindex⟩ := Option.bind_eq_some_iff.1 h
  unfold indexIn at hindex
  split at hindex
  · cases hindex
    omega
  · cases hindex

/-- What the search by source finds is a point of the stream. -/
theorem firstBySource_lt_length {position : LinePosition} {i : Nat}
    (h : firstBySource points position = some i) : i < points.length := by
  unfold firstBySource at h
  split at h
  · cases h
  · cases h
    exact Nat.zero_lt_one
  · exact lt_length_of_bind_indexIn h

/-- What the search for the first offset finds is a point of the stream. -/
theorem firstByOffset_lt_length {start i : Nat} (h : firstByOffset points start = some i) :
    i < points.length := by
  unfold firstByOffset at h
  split at h
  · cases h
  · cases h
    exact Nat.zero_lt_one
  · exact lt_length_of_bind_indexIn h

/-- The search for the end of a run finds a point of every stream that has one. -/
theorem exists_lastByOffset (hne : points ≠ []) (stop : Nat) :
    ∃ i, lastByOffset points stop = some i ∧ i < points.length := by
  obtain ⟨index, hindex, -⟩ := exists_offsetBoundary hne stop
  match points, hne with
  | [p], _ => exact ⟨0, rfl, Nat.zero_lt_one⟩
  | p :: q :: rest, _ =>
    have hlt : min index.toNat ((p :: q :: rest).length - 1) < (p :: q :: rest).length := by
      simp only [List.length_cons]
      omega
    simp only [lastByOffset, hindex, List.getElem?_eq_getElem hlt]
    refine ⟨_, rfl, ?_⟩
    split <;> omega

/-- What the search for the last offset finds is a point of the stream. -/
theorem lastByOffset_lt_length {stop i : Nat} (h : lastByOffset points stop = some i) :
    i < points.length := by
  by_cases hne : points = []
  · subst hne
    cases h
  · obtain ⟨j, hfound, hlt⟩ := exists_lastByOffset hne stop
    rw [h] at hfound
    cases hfound
    exact hlt

/-! ## What is cut out -/

/-- The bounds of what covers a span are in order, and in those of the stream. -/
theorem coveringBounds?_in_bounds {span : LineSpan} {first stop : Nat}
    (h : coveringBounds? points span = some (first, stop)) :
    first < stop ∧ stop ≤ points.length := by
  obtain ⟨i, hfirst, hbounds⟩ := Option.map_eq_some_iff.1 h
  have hlt := firstBySource_lt_length hfirst
  have hle : i ≤ indexAhead points i span.stop := Nat.le_add_right _ _
  cases hbounds
  exact ⟨by omega, Nat.min_le_right _ _⟩

/-- The bounds of a range of offsets are in order, and in those of the stream. -/
theorem offsetBounds?_in_bounds {start stop first behind : Nat}
    (h : offsetBounds? points start stop = some (first, behind)) :
    first < behind ∧ behind ≤ points.length := by
  obtain ⟨last, -, hlast, hle, rfl⟩ := offsetBounds?_eq_some_iff.1 h
  have hlt := lastByOffset_lt_length hlast
  exact ⟨by omega, by omega⟩

/-- The searches end in every stream, in order or not, and for every target, without a look outside of
the stream: both phases end on a cursor, and the search for the end of a run on a point. An index that
is returned is one of a point, and the bounds of the run for a source span, or for a range of offsets
(reversed ones included), are those of a part of the stream. -/
theorem searches_in_bounds (points : Stream) :
    (points ≠ [] →
      (∀ position, ∃ index, sourceBoundary points position = some index ∧ points.IsCursor index) ∧
      (∀ target, ∃ index, offsetBoundary points target = some index ∧ points.IsCursor index) ∧
      ∀ stop, ∃ i, lastByOffset points stop = some i) ∧
    (∀ position i, firstBySource points position = some i → i < points.length) ∧
    (∀ start i, firstByOffset points start = some i → i < points.length) ∧
    (∀ stop i, lastByOffset points stop = some i → i < points.length) ∧
    (∀ span first behind, coveringBounds? points span = some (first, behind) →
      first < behind ∧ behind ≤ points.length) ∧
    ∀ start stop first behind, offsetBounds? points start stop = some (first, behind) →
      first < behind ∧ behind ≤ points.length := by
  refine ⟨fun hne => ⟨exists_sourceBoundary hne, exists_offsetBoundary hne, fun stop => ?_⟩,
    fun _ _ => firstBySource_lt_length, fun _ _ => firstByOffset_lt_length,
    fun _ _ => lastByOffset_lt_length, fun _ _ _ => coveringBounds?_in_bounds,
    fun _ _ _ _ => offsetBounds?_in_bounds⟩
  obtain ⟨i, hfound, -⟩ := exists_lastByOffset hne stop
  exact ⟨i, hfound⟩

/-- Four points in no order at all; the third one stops before it starts. -/
def unorderedPoints : Stream :=
  [⟨15, 20, ⟨9, 0⟩, ⟨9, 5⟩, none, false⟩, ⟨0, 5, ⟨2, 0⟩, ⟨7, 5⟩, none, false⟩,
    ⟨15, 3, ⟨5, 4⟩, ⟨4, 0⟩, none, false⟩, ⟨5, 10, ⟨2, 0⟩, ⟨3, 1⟩, none, false⟩]

/-- A span that stops before it starts is cut out of them, and so is a range of offsets. -/
theorem searches_in_bounds_of_unordered :
    ¬ unorderedPoints.InSourceOrder ∧ ¬ unorderedPoints.InOffsetOrder ∧ unorderedPoints ≠ [] ∧
      (∃ index, sourceBoundary unorderedPoints ⟨4, 3⟩ = some index ∧
        unorderedPoints.IsCursor index) ∧
      (∃ index, offsetBoundary unorderedPoints 15 = some index ∧ unorderedPoints.IsCursor index) ∧
      (firstBySource unorderedPoints ⟨4, 3⟩ = some 0 ∧ 0 < unorderedPoints.length) ∧
      (firstByOffset unorderedPoints 15 = some 2 ∧ 2 < unorderedPoints.length) ∧
      (lastByOffset unorderedPoints 20 = some 3 ∧ 3 < unorderedPoints.length) ∧
      (coveringBounds? unorderedPoints ⟨⟨4, 3⟩, ⟨1, 0⟩⟩ = some (0, 1) ∧
        1 ≤ unorderedPoints.length) ∧
      offsetBounds? unorderedPoints 15 20 = some (2, 4) ∧ 4 ≤ unorderedPoints.length := by
  have hne : unorderedPoints ≠ [] := List.cons_ne_nil _ _
  have hbySource : firstBySource unorderedPoints ⟨4, 3⟩ = some 0 := by decide +kernel
  have hbyOffset : firstByOffset unorderedPoints 15 = some 2 := by decide +kernel
  have hlast : lastByOffset unorderedPoints 20 = some 3 := by decide +kernel
  have hcovering : coveringBounds? unorderedPoints ⟨⟨4, 3⟩, ⟨1, 0⟩⟩ = some (0, 1) := by
    decide +kernel
  have hoffsets : offsetBounds? unorderedPoints 15 20 = some (2, 4) := by decide +kernel
  obtain ⟨hends, hinSource, hinOffset, hinLast, hinCovering, hinOffsets⟩ :=
    searches_in_bounds unorderedPoints
  obtain ⟨hsource, hoffset, -⟩ := hends hne
  exact ⟨by decide, by decide, hne, hsource _, hoffset _, ⟨hbySource, hinSource _ _ hbySource⟩,
    ⟨hbyOffset, hinOffset _ _ hbyOffset⟩, ⟨hlast, hinLast _ _ hlast⟩,
    ⟨hcovering, (hinCovering _ _ _ hcovering).2⟩, hoffsets, (hinOffsets _ _ _ _ hoffsets).2⟩

end Retrace.Stream
