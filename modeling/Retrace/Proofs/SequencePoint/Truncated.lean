import Retrace.Proofs.Bytes.Extended
import Retrace.Proofs.SequencePoint.Decoded

/-!
# Debug information that is cut off

A blob that was cut off somewhere either fails to decode because its bytes run out, or it holds the
first points of the whole blob (`points_of_truncated`). The decoder of a record is stable, so that it
notices the cut only by running out of bytes (`stable_record`). The loop over the records stops without
an error if the cut is right behind a record, and then its points are the first ones of the whole blob
(`pointsFrom_of_extend`).

Where a range ends depends on what comes behind it. The last range in front of the cut is therefore the
only one that is closed in another way: it reaches to the end of the body (`closeRanges_of_front`).
-/

namespace Retrace

/-- The points, with the last range ending at `stop`. -/
def Stream.endingAt (stop : Nat) : Stream → Stream
  | [] => []
  | [p] => [{ p with endOffset := stop }]
  | p :: q :: rest => p :: endingAt stop (q :: rest)

/-- Only the last range ends somewhere else. -/
theorem Stream.endingAt_cons {points : Stream} (h : points ≠ []) (stop : Nat) (p : SequencePoint) :
    endingAt stop (p :: points) = p :: endingAt stop points := by
  obtain ⟨q, rest, rfl⟩ := List.exists_cons_of_ne_nil h
  rfl

namespace Blob

open Decoder

variable {ctx : Context} {s : Progress} {documents : List String}

/-! ## The parts of a blob -/

/-- The name of a document does not depend on bytes. -/
theorem stable_document (documents : List String) (row : Nat) : Stable (document documents row) := by
  unfold document
  split
  · exact .throw _
  · split
    · exact .pure _
    · exact .throw _

/-- A header does not depend on what follows it. -/
theorem stable_header (documents : List String) (row : Nat) : Stable (header documents row) := by
  refine stable_compressedUnsigned.bind fun _ => ?_
  split
  · exact stable_compressedUnsigned.bind fun row => stable_document documents row
  · exact (Stable.pure row).bind fun row => stable_document documents row

/-- The offset of a point does not depend on bytes. -/
theorem stable_pointOffset (codeSize : Nat) (last : Option Nat) (distance : Nat) :
    Stable (pointOffset codeSize last distance) := by
  unfold pointOffset
  dsimp only
  split
  · exact .throw _
  split
  · exact .throw _
  · exact .pure _

/-- The extent of a point does not depend on what follows it. -/
theorem stable_extent : Stable extent := by
  refine stable_compressedUnsigned.bind fun lines => ?_
  split
  · exact stable_compressedUnsigned.bind fun _ => .pure _
  · exact stable_compressedSigned.bind fun _ => .pure _

/-- Nor does its start. -/
theorem stable_startCoordinates (last : Option LinePosition) : Stable (startCoordinates last) := by
  cases last with
  | none =>
    exact stable_compressedUnsigned.bind fun _ => stable_compressedUnsigned.bind fun _ => .pure _
  | some last =>
    exact stable_compressedSigned.bind fun _ => stable_compressedSigned.bind fun _ => .pure _

/-- A coordinate does not depend on bytes. -/
theorem stable_coordinate (which : Coordinate) (value : Int) : Stable (coordinate which value) := by
  unfold coordinate
  split
  · exact .pure _
  · exact .throw _

/-- The text of a point does not depend on what follows it. -/
theorem stable_span (lastStart : Option LinePosition) (lines : Nat) (columns : Int) :
    Stable (span lastStart lines columns) :=
  (stable_startCoordinates lastStart).bind fun _ => (stable_coordinate _ _).bind fun _ =>
    (stable_coordinate _ _).bind fun _ => (stable_coordinate _ _).bind fun _ =>
      (stable_coordinate _ _).bind fun _ => .pure _

/-- Nor does the point. -/
theorem stable_point (ctx : Context) (s : Progress) (offset : Nat) : Stable (point ctx s offset) := by
  refine stable_extent.bind fun (lines, columns) => ?_
  dsimp only
  split
  · exact .pure _
  · exact (stable_span _ _ _).bind fun _ => .pure _

/-- A record does not depend on what follows it, so that records can be cut off one by one. -/
theorem stable_record (ctx : Context) (s : Progress) : Stable (record ctx s) := by
  refine stable_compressedUnsigned.bind fun distance => ?_
  unfold recordFrom
  split
  · exact stable_compressedUnsigned.bind fun row =>
      (stable_document ctx.documents row).bind fun _ => .pure _
  · exact (stable_pointOffset _ _ _).bind fun offset =>
      (stable_point ctx s offset).bind fun _ => .pure _

/-! ## The loop over the records -/

/-- Of the records that a longer blob goes on with, a shorter one has the first ones, unless it breaks
off in the middle of a record. -/
theorem pointsFrom_of_extend {c : Cursor} {more : List UInt8} {opened : Stream}
    (h : pointsFrom ctx s (c.extend more) = .ok opened) :
    pointsFrom ctx s c = .error .outOfBounds ∨
      ∃ front, pointsFrom ctx s c = .ok front ∧ front <+: opened := by
  induction s, c using pointsFrom.induct ctx generalizing opened with
  | case1 s c hrest => exact Or.inr ⟨[], by rw [pointsFrom, hrest], List.nil_prefix⟩
  | case2 s c first rest hrest e c' hrecord =>
    have hne : c.rest ≠ [] := hrest ▸ List.cons_ne_nil first rest
    rw [pointsFrom_of_error hne hrecord]
    rcases stable_record ctx s c more with ⟨c₁, hout⟩ | hsame
    · cases hrecord.symm.trans hout
      exact Or.inl rfl
    · -- what is malformed in the shorter blob is malformed in the longer one
      rw [hrecord] at hsame
      rw [pointsFrom_of_error (List.append_ne_nil_of_left_ne_nil hne more) hsame] at h
      cases h
  | case3 s c first rest hrest p s' c' hrecord hless ih =>
    have hne : c.rest ≠ [] := hrest ▸ List.cons_ne_nil first rest
    rw [pointsFrom_of_ok hne hrecord]
    rcases stable_record ctx s c more with ⟨c₁, hout⟩ | hsame
    · cases hrecord.symm.trans hout
    · rw [hrecord] at hsame
      rw [pointsFrom_of_ok (List.append_ne_nil_of_left_ne_nil hne more) hsame] at h
      obtain ⟨later, hlater, rfl⟩ := exists_of_map_eq_ok h
      rcases ih hlater with hout | ⟨front, hfront, hle⟩
      · rw [hout]
        exact Or.inl rfl
      · rw [hfront]
        exact Or.inr ⟨p.toList ++ front, rfl, (List.prefix_append_right_inj _).2 hle⟩

/-! ## Closing the ranges -/

/-- To close the ranges drops no point. -/
theorem length_closeRanges (points : Stream) : (closeRanges points).length = points.length := by
  have hlength := congrArg List.length (map_offset_closeRanges points)
  rwa [List.length_map, List.length_map] at hlength

/-- The first of some points are closed as they are among all of them, but for the last range. -/
theorem closeRanges_of_front {front opened : Stream} {size : Nat} (hle : front <+: opened)
    (hopen : ∀ p ∈ front, p.endOffset = size) :
    closeRanges front = Stream.endingAt size ((closeRanges opened).take front.length) := by
  obtain ⟨others, rfl⟩ := hle
  induction front using closeRanges.induct with
  | case1 => rfl
  | case2 p =>
    have hp : { p with endOffset := size } = p := by rw [← hopen p List.mem_cons_self]
    cases others with
    | nil => exact (congrArg (fun q => [q]) hp).symm
    | cons q rest => exact (congrArg (fun q => [q]) hp).symm
  | case3 p q rest ih =>
    have htail : (closeRanges (q :: rest ++ others)).take (q :: rest).length ≠ [] := by
      refine List.ne_nil_of_length_pos ?_
      rw [List.length_take, length_closeRanges, List.length_append, List.length_cons]
      omega
    rw [closeRanges, ih fun r hr => hopen r (List.mem_cons_of_mem p hr)]
    exact (Stream.endingAt_cons htail size { p with endOffset := q.offset }).symm

/-! ## Whole blobs -/

/-- The blob without the bytes from some index on either breaks off in the middle of the header or a
record, and then nothing but the missing bytes is reported. Or its points are the first ones of the
whole blob, and differ from these only in that the last range reaches to the end of the body. -/
theorem points_of_truncated {row : Nat} {blob : List UInt8} {decoded : Stream}
    (h : points ctx row blob = .ok decoded) (k : Nat) :
    points ctx row (blob.take k) = .error .outOfBounds ∨
      ∃ front, points ctx row (blob.take k) = .ok front ∧ front.length ≤ decoded.length ∧
        front = Stream.endingAt ctx.codeSize (decoded.take front.length) := by
  by_cases hcut : blob.take k = []
  · rw [hcut]
    exact Or.inr ⟨[], rfl, Nat.zero_le _, rfl⟩
  have hblob : blob ≠ [] := fun hnil => hcut (by rw [hnil, List.take_nil])
  obtain ⟨name, c, opened, hheader, hopened, hcontinues, rfl⟩ := exists_of_points hblob h
  have hbytes : Cursor.ofBytes blob = (Cursor.ofBytes (blob.take k)).extend (blob.drop k) :=
    congrArg (Cursor.mk 0) (List.take_append_drop k blob).symm
  rw [hbytes] at hheader
  rcases (stable_header ctx.documents row).of_extend_ok hheader with ⟨c₁, hout⟩ | ⟨c₁, hok, rfl⟩
  · exact Or.inl (points_of_error hcut hout)
  rw [points_of_ok hcut hok]
  rcases pointsFrom_of_extend hopened with hout | ⟨front, hfront, hle⟩
  · rw [hout]
    exact Or.inl rfl
  rw [hfront]
  refine Or.inr ⟨closeRanges front, rfl, ?_, ?_⟩
  · rw [length_closeRanges, length_closeRanges]
    exact hle.length_le
  · rw [length_closeRanges]
    exact closeRanges_of_front hle fun p hp => (hcontinues.isOpen p (hle.subset hp)).endOffset

/-- A blob of three points, of which the second one is hidden and the third one is in another document.
Behind the switch of the document, two points are left, and the hidden one reaches to the end of the
body. Two bytes further on, the third point has begun, and the bytes run out. -/
theorem points_of_truncated_of_two_documents :
    let ctx : Context := ⟨["A.cs", "B.cs"], 12⟩
    let blob : List UInt8 := [0x00, 0x01, 0x00, 0x00, 0x05, 0x0A, 0x02, 0x03, 0x00, 0x00, 0x00, 0x02,
      0x04, 0x00, 0x03, 0x06, 0x00]
    let first : SequencePoint := ⟨0, 3, ⟨10, 2⟩, ⟨10, 7⟩, "A.cs", false⟩
    points ctx 0 blob = .ok [first, .hidden 3 7 "A.cs", ⟨7, 12, ⟨13, 2⟩, ⟨13, 5⟩, "B.cs", false⟩] ∧
      points ctx 0 (blob.take 12) = .ok [first, .hidden 3 12 "A.cs"] ∧
      points ctx 0 (blob.take 14) = .error .outOfBounds := by
  intro ctx blob first
  have hdecoded : points ctx 0 blob =
      .ok [first, .hidden 3 7 "A.cs", ⟨7, 12, ⟨13, 2⟩, ⟨13, 5⟩, "B.cs", false⟩] := by cbv
  have htwo : (points ctx 0 (blob.take 12)).map List.length = .ok 2 := by cbv
  have hnone : (points ctx 0 (blob.take 14)).toOption = none := by cbv
  refine ⟨hdecoded, ?_, ?_⟩
  · rcases points_of_truncated hdecoded 12 with hout | ⟨front, hfront, -, hclosed⟩
    · rw [hout] at htwo
      cases htwo
    · rw [hfront] at htwo ⊢
      rw [Except.ok.inj htwo] at hclosed
      rw [hclosed]
      rfl
  · rcases points_of_truncated hdecoded 14 with hout | ⟨front, hfront, -⟩
    · exact hout
    · rw [hfront] at hnone
      cases hnone

end Blob

end Retrace
