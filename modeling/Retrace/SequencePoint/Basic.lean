import Retrace.Location

/-!
# Sequence points

A sequence point ties a half-open range of IL offsets in a method body to a stretch of source text.
The points of a method form a stream. A hidden point marks code that no source text belongs to.
-/

namespace Retrace

/-- A range of IL offsets and the source text it was compiled to or from. -/
structure SequencePoint where
  /-- Where the range starts. -/
  offset : Nat
  /-- Where the range ends; this offset is outside of it. -/
  endOffset : Nat
  start : LinePosition
  stop : LinePosition
  /-- The file the source text is in, if known. -/
  document : Option String
  isHidden : Bool
deriving DecidableEq

/-- The line that hidden points carry. -/
def hiddenLine : Nat := 0xFEEFEE

namespace SequencePoint

/-- The hidden point of a range. -/
def hidden (offset endOffset : Nat) (document : Option String) : SequencePoint :=
  { offset, endOffset, start := ⟨hiddenLine, 0⟩, stop := ⟨hiddenLine, 0⟩, document,
    isHidden := true }

/-- The point starts at or before a position. -/
def IsBehind (p : SequencePoint) (position : LinePosition) : Prop := p.start ≤ position

/-- The point ends at or behind a position. -/
def IsAhead (p : SequencePoint) (position : LinePosition) : Prop := position ≤ p.stop

instance (p : SequencePoint) (position : LinePosition) : Decidable (p.IsBehind position) :=
  inferInstanceAs (Decidable (p.start ≤ position))

instance (p : SequencePoint) (position : LinePosition) : Decidable (p.IsAhead position) :=
  inferInstanceAs (Decidable (position ≤ p.stop))

end SequencePoint

/-- The sequence points of one method. -/
abbrev Stream := List SequencePoint

namespace Stream

/-- The points that source text belongs to, in the given order. -/
def visible (points : Stream) : Stream := points.filter fun p => !p.isHidden

/-- The visible points in the order of their source text; points with equal starts keep their order.
-/
def sanitized (points : Stream) : Stream :=
  (visible points).mergeSort fun p q => decide (p.start ≤ q.start)

/-- The index of the first point that starts at an offset. -/
def indexOfOffset? (points : Stream) (offset : Nat) : Option Nat :=
  points.findIdx? fun p => p.offset == offset

end Stream

end Retrace
