import Retrace.SequencePoint.Basic

/-!
# Boundaries in a stream

Three searches find where a stream crosses a source position or an IL offset. Each runs in two
phases. The binary phase (`probe`) halves an index interval and remembers the point it looked at
last, which need not be the point at the index it ends on. The walk starts at that index with that
remembered point and moves one point at a time until the points stop being on its side.

The result depends on both phases: on how the halving rounds, and on the remembered point. Indices
are integers, since the binary phase may step below zero, and the middle of an interval rounds
toward zero. An access outside of the stream would make the whole search `none`; the interval
bounds rule it out for every stream, sorted or not.
-/

namespace Retrace.Stream

/-- The point at an index, if the index lies in the stream. -/
def pointAt? (points : Stream) (index : Int) : Option SequencePoint :=
  if 0 ≤ index then points[index.toNat]? else none

/-! ## The binary phase -/

/-- Where a binary phase goes on after looking at a point. -/
inductive Turn
  /-- Behind the point. -/
  | later
  /-- Before the point. -/
  | earlier
  /-- Nowhere: the point is the target. -/
  | here
deriving DecidableEq

/-- Where a binary phase ended. -/
structure Probe where
  /-- The middle of the last interval. -/
  middle : Int
  /-- The point looked at last. -/
  current : SequencePoint

/-- The middle of an index interval, rounded toward zero. -/
def middle (left right : Int) : Int := (left + right).tdiv 2

/-- The middle of an interval is not in front of it. -/
theorem left_le_middle {left right : Int} (h : left < right) : left ≤ middle left right := by
  have : Int.sign 2 = 1 := rfl
  rw [middle, Int.tdiv_eq_ediv]
  split <;> omega

/-- The middle of an interval is not behind it. -/
theorem middle_le_right {left right : Int} (h : left < right) : middle left right ≤ right := by
  have : Int.sign 2 = 1 := rfl
  rw [middle, Int.tdiv_eq_ediv]
  split <;> omega

/-- Halves the interval from `left` to `right` until it is empty or the target is met. -/
def probe (points : Stream) (turn : SequencePoint → Turn) (left right : Int)
    (current : SequencePoint) : Option Probe :=
  if h : left < right then
    match pointAt? points (middle left right) with
    | none => none
    | some p =>
      have := left_le_middle h
      have := middle_le_right h
      match turn p with
      | .later => probe points turn (middle left right + 1) right p
      | .earlier => probe points turn left (middle left right - 1) p
      | .here => some ⟨middle left right, p⟩
  else
    some ⟨middle left right, current⟩
termination_by (right - left).toNat

/-! ## The walk -/

/-- Walks toward the end while the points satisfy `ahead`, and steps back once. -/
def walkLater (points : Stream) (ahead : SequencePoint → Bool) (index : Int)
    (current : SequencePoint) : Option Int :=
  if ahead current then
    if index + 1 < points.length then
      match pointAt? points (index + 1) with
      | none => none
      | some p => walkLater points ahead (index + 1) p
    else
      some index
  else
    some (index - 1)
termination_by (points.length - index).toNat

/-- Walks toward the start until a point satisfies `reached`, and steps back once. -/
def walkEarlier (points : Stream) (reached : SequencePoint → Bool) (index : Int)
    (current : SequencePoint) : Option Int :=
  if reached current then
    some (index + 1)
  else if 0 < index then
    match pointAt? points (index - 1) with
    | none => none
    | some p => walkEarlier points reached (index - 1) p
  else
    some index
termination_by index.toNat

/-- Both phases over the whole stream. The remembered point decides the direction of the walk. -/
def boundary (points : Stream) (turn : SequencePoint → Turn)
    (isBehind : SequencePoint → Bool) (ahead reached : SequencePoint → Bool) : Option Int :=
  match pointAt? points (middle 0 points.length) with
  | none => none
  | some first =>
    match probe points turn 0 points.length first with
    | none => none
    | some p =>
      if isBehind p.current then
        walkLater points ahead p.middle p.current
      else
        walkEarlier points reached p.middle p.current

/-! ## Source positions -/

/-- The binary phase looks at start lines only and never meets the target. -/
def lineTurn (line : Nat) (p : SequencePoint) : Turn :=
  if p.start.line < line then .later else .earlier

/-- The boundary at a source position. -/
def sourceBoundary (points : Stream) (position : LinePosition) : Option Int :=
  boundary points (lineTurn position.line) (fun p => p.IsBehind position)
    (fun p => p.IsBehind position) (fun p => p.IsBehind position)

/-- An index that lies in the stream. -/
def indexIn (points : Stream) (index : Int) : Option Nat :=
  if 0 ≤ index ∧ index < points.length then some index.toNat else none

/-- Where a run that covers a source position begins. A stream of one point always begins there. -/
def firstBySource (points : Stream) (position : LinePosition) : Option Nat :=
  match points with
  | [] => none
  | [_] => some 0
  | _ => (sourceBoundary points position).bind (indexIn points)

/-! ## IL offsets -/

/-- The binary phase over offsets; it may meet the target. -/
def offsetTurn (target : Nat) (p : SequencePoint) : Turn :=
  if p.offset < target then .later else if target < p.offset then .earlier else .here

/-- The boundary at an IL offset. -/
def offsetBoundary (points : Stream) (target : Nat) : Option Int :=
  boundary points (offsetTurn target) (fun p => p.offset < target)
    (fun p => p.offset ≤ target) (fun p => p.offset < target)

/-- Where a run that starts at an IL offset begins. A stream of one point always begins there. -/
def firstByOffset (points : Stream) (start : Nat) : Option Nat :=
  match points with
  | [] => none
  | [_] => some 0
  | _ => (offsetBoundary points start).bind (indexIn points)

/-- Where a run that stops before an IL offset ends: the boundary, kept inside the stream, or one
point earlier if the point found starts too late. -/
def lastByOffset (points : Stream) (stop : Nat) : Option Nat :=
  match points with
  | [] => none
  | [_] => some 0
  | _ =>
    match offsetBoundary points stop with
    | none => none
    | some index =>
      let found := min index.toNat (points.length - 1)
      match points[found]? with
      | none => none
      | some p => some (if stop ≤ p.offset then found - 1 else found)

end Retrace.Stream
