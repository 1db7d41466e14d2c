import Retrace.Stream.Boundary

/-!
# Runs of points

A run is a contiguous part of a stream, given by the index of its first point and the index behind
its last one. `covering` takes the run of points that a source span touches; `counterpart` takes the
run of another stream over the same IL offsets.
-/

namespace Retrace.Stream

/-- The points with indices from `first` up to but not including `stop`. -/
def run (points : Stream) (first stop : Nat) : Stream := (points.drop first).take (stop - first)

/-- The index of the first point from `index` on that ends at or behind a position, or else the
length of the stream. -/
def indexAhead (points : Stream) (index : Nat) (position : LinePosition) : Nat :=
  index + (points.drop index).findIdx fun p => p.IsAhead position

/-- The bounds of the covering run of a span: from the boundary at its start through the first point
that reaches its end. -/
def coveringBounds? (points : Stream) (span : LineSpan) : Option (Nat × Nat) :=
  (firstBySource points span.start).map fun first =>
    (first, min (indexAhead points first span.stop + 1) points.length)

/-- The points that a span touches. -/
def covering (points : Stream) (span : LineSpan) : Stream :=
  match coveringBounds? points span with
  | none => []
  | some (first, stop) => run points first stop

/-- The bounds of the run over the IL offsets from `start` to `stop`. -/
def offsetBounds? (points : Stream) (start stop : Nat) : Option (Nat × Nat) :=
  match firstByOffset points start, lastByOffset points stop with
  | some first, some last => if first ≤ last then some (first, last + 1) else none
  | _, _ => none

/-- The run of `haystack` over the IL offsets from the start of the first point of `needle` to the
end of its last point. -/
def counterpart (needle haystack : Stream) : Stream :=
  match needle.head?, needle.getLast? with
  | some head, some tail =>
    match offsetBounds? haystack head.offset tail.endOffset with
    | some (first, stop) => run haystack first stop
    | none => []
  | _, _ => []

end Retrace.Stream
