import Retrace.Bytes.Compressed
import Retrace.Bytes.Word
import Retrace.SequencePoint.Basic

/-!
# Sequence points in debug information

The debug information of a method stores its sequence points as a blob of compressed integers: a
header (the row of the local signature, and the initial document unless the method's own row names
one), then records until the blob ends. A record starts with the distance from the last point's
offset. After the first point, distance zero switches the document. Otherwise the record is a point:
its extent in lines and columns, where no extent at all marks a hidden point, and its start, given
absolutely for the first visible point and relative to the last visible point after that.

The blob holds starts only. Each range ends where the next one starts, and the last one with the
method body (`closeRanges`).
-/

namespace Retrace.Blob

open Decoder

/-- What a method's blob is read against. -/
structure Context where
  /-- The document table; rows count from one. -/
  documents : List String
  /-- The size of the method body. -/
  codeSize : Nat

/-- What is remembered from one record to the next. -/
structure Progress where
  /-- The current document. -/
  document : String
  /-- The offset of the last point. -/
  lastOffset : Option Nat
  /-- The start of the last visible point. -/
  lastStart : Option LinePosition

/-- The name of a row of the document table. -/
def document (documents : List String) (row : Nat) : Decoder String :=
  match row with
  | 0 => throw (.malformed (.documentRow 0))
  | index + 1 =>
    match documents[index]? with
    | some name => return name
    | none => throw (.malformed (.documentRow row))

/-- The document that a blob starts in: the one of the method's row, or else the one it names. -/
def header (documents : List String) (row : Nat) : Decoder String := do
  let _localSignature ← compressedUnsigned
  let row ← if row = 0 then compressedUnsigned else pure row
  document documents row

/-- The offset of the next point. -/
def pointOffset (codeSize : Nat) (last : Option Nat) (distance : Nat) : Decoder Nat :=
  let offset := last.getD 0 + distance
  if wordLimit ≤ offset then
    throw (.malformed .offsetOverflow)
  else if codeSize ≤ offset then
    throw (.malformed (.offsetOutside offset codeSize))
  else
    return offset

/-- The extent of a point in lines and columns. Columns are signed where lines are left. -/
def extent : Decoder (Nat × Int) := do
  let lines ← compressedUnsigned
  if lines = 0 then
    let columns ← compressedUnsigned
    return (lines, columns)
  else
    let columns ← compressedSigned
    return (lines, columns)

/-- The start of a visible point, as read. -/
def startCoordinates : Option LinePosition → Decoder (Int × Int)
  | none => do
    let line ← compressedUnsigned
    let column ← compressedUnsigned
    return (line, column)
  | some last => do
    let line ← compressedSigned
    let column ← compressedSigned
    return (last.line + line, last.character + column)

/-- A line or column, if 32 bits can hold it. -/
def coordinate (which : Coordinate) (value : Int) : Decoder Nat :=
  if 0 ≤ value ∧ value < wordLimit then
    return value.toNat
  else
    throw (.malformed (.coordinate which value))

/-- The source text of a visible point. -/
def span (lastStart : Option LinePosition) (lines : Nat) (columns : Int) : Decoder LineSpan := do
  let (line, column) ← startCoordinates lastStart
  let startLine ← coordinate .startLine line
  let startColumn ← coordinate .startColumn column
  let endLine ← coordinate .endLine (line + lines)
  let endColumn ← coordinate .endColumn (column + columns)
  return ⟨⟨startLine, startColumn⟩, ⟨endLine, endColumn⟩⟩

/-- The point at `offset`, with its range reaching to the end of the body. -/
def point (ctx : Context) (s : Progress) (offset : Nat) : Decoder (SequencePoint × Progress) := do
  let (lines, columns) ← extent
  if lines = 0 ∧ columns = 0 then
    return (.hidden offset ctx.codeSize s.document, { s with lastOffset := some offset })
  else
    let text ← span s.lastStart lines columns
    return (
      { offset, endOffset := ctx.codeSize, start := text.start, stop := text.stop,
        document := s.document, isHidden := false },
      { s with lastOffset := some offset, lastStart := some text.start })

/-- The record whose distance has been read: a point, or a switch of the document. -/
def recordFrom (ctx : Context) (s : Progress) (distance : Nat) :
    Decoder (Option SequencePoint × Progress) := do
  if distance = 0 ∧ s.lastOffset.isSome then
    let row ← compressedUnsigned
    let name ← document ctx.documents row
    return (none, { s with document := name })
  else
    let offset ← pointOffset ctx.codeSize s.lastOffset distance
    let (p, s) ← point ctx s offset
    return (some p, s)

/-- The record at the cursor. -/
def record (ctx : Context) (s : Progress) : Decoder (Option SequencePoint × Progress) :=
  compressedUnsigned >>= recordFrom ctx s

/-! ## Reading a record moves the cursor forward -/

/-- A document is looked up without reading anything. -/
theorem forward_document (documents : List String) (row : Nat) :
    Forward (document documents row) := by
  unfold document
  split
  · exact .throw _
  · split
    · exact .pure _
    · exact .throw _

/-- The offset of a point is worked out without reading anything. -/
theorem forward_pointOffset (codeSize : Nat) (last : Option Nat) (distance : Nat) :
    Forward (pointOffset codeSize last distance) := by
  unfold pointOffset
  dsimp only
  split
  · exact .throw _
  split
  · exact .throw _
  · exact .pure _

/-- The extent of a point is read forward. -/
theorem forward_extent : Forward extent := by
  refine forward_compressedUnsigned.bind fun lines => ?_
  split
  · exact forward_compressedUnsigned.bind fun _ => .pure _
  · exact forward_compressedSigned.bind fun _ => .pure _

/-- The start of a point is read forward, absolute or as a difference. -/
theorem forward_startCoordinates (last : Option LinePosition) :
    Forward (startCoordinates last) := by
  cases last with
  | none =>
    exact forward_compressedUnsigned.bind fun _ => forward_compressedUnsigned.bind fun _ => .pure _
  | some last =>
    exact forward_compressedSigned.bind fun _ => forward_compressedSigned.bind fun _ => .pure _

/-- A coordinate is checked without reading anything. -/
theorem forward_coordinate (which : Coordinate) (value : Int) :
    Forward (coordinate which value) := by
  unfold coordinate
  split
  · exact .pure _
  · exact .throw _

/-- The span of a visible point is read forward. -/
theorem forward_span (lastStart : Option LinePosition) (lines : Nat) (columns : Int) :
    Forward (span lastStart lines columns) :=
  (forward_startCoordinates lastStart).bind fun _ => (forward_coordinate _ _).bind fun _ =>
    (forward_coordinate _ _).bind fun _ => (forward_coordinate _ _).bind fun _ =>
      (forward_coordinate _ _).bind fun _ => .pure _

/-- A point is read forward, hidden or not. -/
theorem forward_point (ctx : Context) (s : Progress) (offset : Nat) :
    Forward (point ctx s offset) := by
  refine forward_extent.bind fun (lines, columns) => ?_
  dsimp only
  split
  · exact .pure _
  · exact (forward_span _ _ _).bind fun _ => .pure _

/-- A record is read forward behind its first number, whichever of the two kinds it is. -/
theorem forward_recordFrom (ctx : Context) (s : Progress) (distance : Nat) :
    Forward (recordFrom ctx s distance) := by
  unfold recordFrom
  split
  · exact forward_compressedUnsigned.bind fun _ => (forward_document _ _).bind fun _ => .pure _
  · exact (forward_pointOffset _ _ _).bind fun _ => (forward_point _ _ _).bind fun _ => .pure _

/-- A record takes at least one byte, so that a blob has finitely many. -/
theorem remaining_lt_of_record {ctx : Context} {s : Progress} {c c' : Cursor}
    {r : Option SequencePoint × Progress} (h : record ctx s c = .ok r c') :
    c'.remaining < c.remaining := by
  simp only [record, Bind.bind, EStateM.bind] at h
  split at h
  · next distance c₁ hc =>
    have h₁ := remaining_lt_of_compressedUnsigned hc
    have h₂ := (forward_recordFrom ctx s distance c₁).remaining_le
    rw [h] at h₂
    exact Nat.lt_of_le_of_lt h₂ h₁
  · cases h

/-! ## Whole blobs -/

/-- The points of the records from the cursor to the end of the blob. -/
def pointsFrom (ctx : Context) (s : Progress) (c : Cursor) : Except DecodeError Stream :=
  match c.rest with
  | [] => .ok []
  | _ :: _ =>
    match h : record ctx s c with
    | .error e _ => .error e
    | .ok (p, s') c' =>
      have : c'.remaining < c.remaining := remaining_lt_of_record h
      (pointsFrom ctx s' c').map (p.toList ++ ·)
termination_by c.remaining

/-- Records are read one behind the other: a point is put in front of the later ones, and a change
of the document leaves none. -/
theorem pointsFrom_of_ok {ctx : Context} {s s' : Progress} {c c' : Cursor}
    {p : Option SequencePoint} (hrest : c.rest ≠ []) (h : record ctx s c = .ok (p, s') c') :
    pointsFrom ctx s c = (pointsFrom ctx s' c').map (p.toList ++ ·) := by
  obtain ⟨first, rest, hrest⟩ := List.exists_cons_of_ne_nil hrest
  rw [pointsFrom, hrest]
  dsimp only
  split
  · next hok => cases h.symm.trans hok
  · next hok => cases h.symm.trans hok; rfl

/-- A record that fails fails the whole blob. -/
theorem pointsFrom_of_error {ctx : Context} {s : Progress} {c c' : Cursor} {e : DecodeError}
    (hrest : c.rest ≠ []) (h : record ctx s c = .error e c') : pointsFrom ctx s c = .error e := by
  obtain ⟨first, rest, hrest⟩ := List.exists_cons_of_ne_nil hrest
  rw [pointsFrom, hrest]
  dsimp only
  split
  · next hok => cases h.symm.trans hok; rfl
  · next hok => cases h.symm.trans hok

/-- Ends each range but the last where the next one starts. -/
def closeRanges : Stream → Stream
  | [] => []
  | [p] => [p]
  | p :: q :: rest => { p with endOffset := q.offset } :: closeRanges (q :: rest)

/-- The sequence points of a method, given its blob and its row of the document table. -/
def points (ctx : Context) (row : Nat) (blob : List UInt8) : Except DecodeError Stream :=
  match blob with
  | [] => .ok []
  | _ :: _ =>
    match header ctx.documents row (.ofBytes blob) with
    | .error e _ => .error e
    | .ok name c => (pointsFrom ctx ⟨name, none, none⟩ c).map closeRanges

/-- The points of a blob are those behind its header. Their ranges are closed in the end. -/
theorem points_of_ok {ctx : Context} {row : Nat} {blob : List UInt8} {name : String} {c : Cursor}
    (hblob : blob ≠ []) (h : header ctx.documents row (.ofBytes blob) = .ok name c) :
    points ctx row blob = (pointsFrom ctx ⟨name, none, none⟩ c).map closeRanges := by
  obtain ⟨first, rest, rfl⟩ := List.exists_cons_of_ne_nil hblob
  rw [points, h]

/-- A blob whose header cannot be read has no points. -/
theorem points_of_error {ctx : Context} {row : Nat} {blob : List UInt8} {e : DecodeError} {c : Cursor}
    (hblob : blob ≠ []) (h : header ctx.documents row (.ofBytes blob) = .error e c) :
    points ctx row blob = .error e := by
  obtain ⟨first, rest, rfl⟩ := List.exists_cons_of_ne_nil hblob
  rw [points, h]

end Retrace.Blob
