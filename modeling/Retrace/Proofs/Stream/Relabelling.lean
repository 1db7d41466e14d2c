import Retrace.Stream.Alignment
import Retrace.Stream.Run

/-!
# Searches read offsets only

The searches over IL offsets decide by the offsets of points, and so does the alignment of a run with
authored points. They therefore commute with every change `f` of points that keeps the offsets, in
any stream, ordered or not:

* `counterpart_map` : what is taken from changed points is the change of what is taken;
* `alignment_map` : a run fits changed points as it fits the points themselves.
-/

namespace Retrace.Stream

variable {f : SequencePoint → SequencePoint}

/-! ## The two phases -/

/-- A relabelled stream has the relabelled points. -/
theorem pointAt?_map (points : Stream) (index : Int) :
    pointAt? (points.map f) index = (pointAt? points index).map f := by
  unfold pointAt?
  split
  · exact List.getElem?_map
  · rfl

/-- A change that no turn notices does not change where the binary phase goes. -/
theorem probe_map {turn : SequencePoint → Turn} (hturn : ∀ p, turn (f p) = turn p)
    (points : Stream) (left right : Int) (current : SequencePoint) :
    probe (points.map f) turn left right (f current) =
      (probe points turn left right current).map fun p => ⟨p.middle, f p.current⟩ := by
  fun_induction probe points turn left right current with
  | case1 left right current h hp =>
    rw [probe, dif_pos h]
    simp only [pointAt?_map, hp, Option.map_none]
  | case2 left right current h p hp _ _ later ih =>
    rw [probe, dif_pos h]
    simp only [pointAt?_map, hp, Option.map_some, hturn, later, ih]
  | case3 left right current h p hp _ _ earlier ih =>
    rw [probe, dif_pos h]
    simp only [pointAt?_map, hp, Option.map_some, hturn, earlier, ih]
  | case4 left right current h p hp _ _ here =>
    rw [probe, dif_pos h]
    simp only [pointAt?_map, hp, Option.map_some, hturn, here]
  | case5 left right current h =>
    rw [probe, dif_neg h]
    rfl

/-- The walk to later points takes the same steps. -/
theorem walkLater_map {ahead : SequencePoint → Bool} (hahead : ∀ p, ahead (f p) = ahead p)
    (points : Stream) (index : Int) (current : SequencePoint) :
    walkLater (points.map f) ahead index (f current) = walkLater points ahead index current := by
  fun_induction walkLater points ahead index current with
  | case1 index current h hlt hp =>
    rw [walkLater, hahead, if_pos h, List.length_map, if_pos hlt]
    simp only [pointAt?_map, hp, Option.map_none]
  | case2 index current h hlt p hp ih =>
    rw [walkLater, hahead, if_pos h, List.length_map, if_pos hlt]
    simp only [pointAt?_map, hp, Option.map_some, ih]
  | case3 index current h hlt =>
    rw [walkLater, hahead, if_pos h, List.length_map, if_neg hlt]
  | case4 index current h =>
    rw [walkLater, hahead, if_neg h]

/-- The walk to earlier points takes the same steps. -/
theorem walkEarlier_map {reached : SequencePoint → Bool} (hreached : ∀ p, reached (f p) = reached p)
    (points : Stream) (index : Int) (current : SequencePoint) :
    walkEarlier (points.map f) reached index (f current) =
      walkEarlier points reached index current := by
  fun_induction walkEarlier points reached index current with
  | case1 index current h =>
    rw [walkEarlier, hreached, if_pos h]
  | case2 index current h hpos hp =>
    rw [walkEarlier, hreached, if_neg h, if_pos hpos]
    simp only [pointAt?_map, hp, Option.map_none]
  | case3 index current h hpos p hp ih =>
    rw [walkEarlier, hreached, if_neg h, if_pos hpos]
    simp only [pointAt?_map, hp, Option.map_some, ih]
  | case4 index current h hpos =>
    rw [walkEarlier, hreached, if_neg h, if_neg hpos]

/-! ## Searches over offsets -/

/-- The search by offset ends at the same index. -/
theorem offsetBoundary_map (hf : ∀ p, (f p).offset = p.offset) (points : Stream) (target : Nat) :
    offsetBoundary (points.map f) target = offsetBoundary points target := by
  have hturn : ∀ p, offsetTurn target (f p) = offsetTurn target p := fun p => by
    rw [offsetTurn, offsetTurn, hf]
  unfold offsetBoundary boundary
  rw [List.length_map, pointAt?_map]
  cases pointAt? points (middle 0 points.length) with
  | none => rfl
  | some first =>
    simp only [Option.map_some, probe_map hturn]
    cases probe points (offsetTurn target) 0 points.length first with
    | none => rfl
    | some p =>
      simp only [Option.map_some, hf]
      rw [walkLater_map (fun q => by rw [hf]), walkEarlier_map (fun q => by rw [hf])]

/-- The same indices are in the bounds. -/
theorem indexIn_map (points : Stream) : indexIn (points.map f) = indexIn points := by
  funext index
  rw [indexIn, indexIn, List.length_map]

/-- The same first point is found. -/
theorem firstByOffset_map (hf : ∀ p, (f p).offset = p.offset) (points : Stream) (start : Nat) :
    firstByOffset (points.map f) start = firstByOffset points start := by
  match points with
  | [] => rfl
  | [_] => rfl
  | p :: q :: rest =>
    have hbound := offsetBoundary_map hf (p :: q :: rest) start
    have hindex := indexIn_map (f := f) (p :: q :: rest)
    simp only [List.map_cons] at hbound hindex
    simp only [firstByOffset, List.map_cons, hbound, hindex]

/-- The same last point is found. -/
theorem lastByOffset_map (hf : ∀ p, (f p).offset = p.offset) (points : Stream) (stop : Nat) :
    lastByOffset (points.map f) stop = lastByOffset points stop := by
  match points with
  | [] => rfl
  | [_] => rfl
  | p :: q :: rest =>
    have hbound := offsetBoundary_map hf (p :: q :: rest) stop
    have hget : ∀ i, (f p :: f q :: rest.map f)[i]? = (p :: q :: rest)[i]?.map f :=
      fun i => List.getElem?_map (l := p :: q :: rest) (f := f) (i := i)
    simp only [List.map_cons] at hbound
    simp only [lastByOffset, List.map_cons, hbound, List.length_cons, List.length_map, hget]
    cases offsetBoundary (p :: q :: rest) stop with
    | none => rfl
    | some index =>
      dsimp only
      cases (p :: q :: rest)[min index.toNat (rest.length + 1 + 1 - 1)]? with
      | none => rfl
      | some r => simp only [Option.map_some, hf]

/-! ## Runs -/

/-- A run of relabelled points is a relabelled run. -/
theorem run_map (points : Stream) (i stop : Nat) :
    run (points.map f) i stop = (run points i stop).map f := by
  rw [run, run, List.map_take, List.map_drop]

/-- The counterpart in a relabelled stream is the relabelled counterpart. -/
theorem counterpart_map (hf : ∀ p, (f p).offset = p.offset) (needle haystack : Stream) :
    counterpart needle (haystack.map f) = (counterpart needle haystack).map f := by
  unfold counterpart offsetBounds?
  split
  · rw [firstByOffset_map hf, lastByOffset_map hf]
    split
    · exact run_map _ _ _
    · rfl
  · rfl

/-- A run is aligned in the same way with relabelled points. -/
theorem alignment_map (hf : ∀ p, (f p).offset = p.offset) (run authored : Stream)
    (instructions : List Nat) :
    alignment run (authored.map f) instructions = alignment run authored instructions := by
  unfold alignment classify
  cases run.offsets? with
  | none => rfl
  | some bounds =>
    simp only [List.find?_map, Function.comp_def, hf, Option.any_map]

end Retrace.Stream
