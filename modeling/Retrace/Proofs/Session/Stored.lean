import Retrace.Proofs.SequencePoint.Decoded
import Retrace.Proofs.Session.HiddenRegion
import Retrace.Proofs.Session.Reordered

/-!
# Decoded streams are fit to be searched

The searches by offset take for granted that a stream is in the order of its offsets. Nothing checks
it: the order comes from the decoder, and it survives that a session drops the hidden points.

* `Stream.Tiles.existsUnique_covers` : of points that tile a body, exactly one covers an offset;
* `Session.orderly_of_decoded` : decoded points tile the method body, and what a session over
  portable symbols stores for a function is `Stream.Orderly`.
-/

namespace Retrace

namespace Stream

variable {points rest : Stream} {p q : SequencePoint} {size offset : Nat}

/-! ## Points that tile a body -/

/-- Where the first range starts, or else the body ends. -/
def firstOffset (points : Stream) (size : Nat) : Nat :=
  (points.head?.map SequencePoint.offset).getD size

/-- No points leave nothing to tile. -/
theorem Tiles.nil (size : Nat) : Tiles [] size where
  increasing := .nil
  inside _ hp := nomatch hp
  adjacent := .nil
  reaches _ hp := nomatch hp

/-- The first of the points leads up to the others. -/
theorem Tiles.of_cons (h : Tiles (p :: rest) size) :
    p.offset < p.endOffset ∧ p.endOffset = firstOffset rest size ∧ rest.Tiles size := by
  obtain ⟨hlater, hincreasing⟩ := List.pairwise_cons.1 h.increasing
  cases rest with
  | nil =>
    have hend : p.endOffset = size := h.reaches p rfl
    have hstart : p.offset < size := h.inside p List.mem_cons_self
    exact ⟨hend ▸ hstart, hend, .nil size⟩
  | cons next others =>
    obtain ⟨hadjacent, hchain⟩ := List.isChain_cons_cons.1 h.adjacent
    have hnext : p.offset < next.offset := hlater next List.mem_cons_self
    refine ⟨hadjacent ▸ hnext, hadjacent, ?_⟩
    exact ⟨hincreasing, fun q hq => h.inside q (List.mem_cons_of_mem p hq), hchain, h.reaches⟩

/-- No point is in front of the first offset. -/
theorem Tiles.firstOffset_le (h : points.Tiles size) (hp : p ∈ points) :
    firstOffset points size ≤ p.offset := by
  cases points with
  | nil => cases hp
  | cons first rest =>
    rcases List.mem_cons.1 hp with rfl | hp
    · exact Nat.le_refl p.offset
    · exact Nat.le_of_lt ((List.pairwise_cons.1 h.increasing).1 p hp)

/-- The first offset is not behind the body. -/
theorem Tiles.firstOffset_le_size (h : points.Tiles size) : firstOffset points size ≤ size := by
  cases points with
  | nil => exact Nat.le_refl size
  | cons first rest => exact Nat.le_of_lt (h.inside first List.mem_cons_self)

/-- Points that tile a body do not overlap. -/
theorem Tiles.hasDisjointRanges (h : points.Tiles size) : points.HasDisjointRanges := by
  induction points with
  | nil => exact .nil
  | cons p rest ih =>
    obtain ⟨-, hend, hrest⟩ := h.of_cons
    refine List.pairwise_cons.2 ⟨fun q hq => ?_, ih hrest⟩
    rw [hend]
    exact hrest.firstOffset_le hq

/-- No range is empty or reaches beyond the body. -/
theorem Tiles.range_of_mem (h : points.Tiles size) (hp : p ∈ points) :
    p.offset < p.endOffset ∧ p.endOffset ≤ size := by
  induction points with
  | nil => cases hp
  | cons first rest ih =>
    obtain ⟨hrange, hend, hrest⟩ := h.of_cons
    rcases List.mem_cons.1 hp with rfl | hp
    · exact ⟨hrange, hend ▸ hrest.firstOffset_le_size⟩
    · exact ih hrest hp

/-- From the first offset on, every offset of the body is in the range of a point. -/
theorem Tiles.exists_covers (h : points.Tiles size) (hfirst : firstOffset points size ≤ offset)
    (hsize : offset < size) : ∃ p ∈ points, p.Covers offset := by
  induction points with
  | nil => exact absurd hsize (Nat.not_lt.2 hfirst)
  | cons p rest ih =>
    obtain ⟨-, hend, hrest⟩ := h.of_cons
    by_cases hp : offset < p.endOffset
    · exact ⟨p, List.mem_cons_self, hfirst, hp⟩
    · -- behind the first range there is no gap before the next one
      have hbehind : firstOffset rest size ≤ offset := hend ▸ Nat.le_of_not_lt hp
      obtain ⟨q, hq, hcovers⟩ := ih hrest hbehind
      exact ⟨q, List.mem_cons_of_mem p hq, hcovers⟩

/-- Disjoint ranges have no offset in common. -/
theorem HasDisjointRanges.eq_of_covers (h : points.HasDisjointRanges) (hp : p ∈ points)
    (hq : q ∈ points) (hcovers : p.Covers offset) (hcovers' : q.Covers offset) : p = q := by
  obtain ⟨hstart, hstop⟩ := hcovers
  obtain ⟨hstart', hstop'⟩ := hcovers'
  induction points with
  | nil => cases hp
  | cons first rest ih =>
    obtain ⟨hlater, hrest⟩ := List.pairwise_cons.1 h
    rcases List.mem_cons.1 hp with rfl | hp'
    · rcases List.mem_cons.1 hq with rfl | hq'
      · rfl
      · have hle := hlater q hq'
        omega
    · rcases List.mem_cons.1 hq with rfl | hq'
      · have hle := hlater p hp'
        omega
      · exact ih hrest hp' hq'

/-- Each offset from the first start to the end of the body is covered by exactly one point. -/
theorem Tiles.existsUnique_covers (h : points.Tiles size)
    (hfirst : firstOffset points size ≤ offset) (hsize : offset < size) :
    ∃ p ∈ points, p.Covers offset ∧ ∀ q ∈ points, q.Covers offset → q = p := by
  obtain ⟨p, hp, hcovers⟩ := h.exists_covers hfirst hsize
  exact ⟨p, hp, hcovers, fun q hq hcovers' =>
    h.hasDisjointRanges.eq_of_covers hq hp hcovers' hcovers⟩

/-! ## Points that can be searched by offset -/

/-- What a stream is searched for by offset must be: visible points in strictly increasing order,
with ranges that are neither empty nor overlap. -/
structure Orderly (points : Stream) : Prop where
  increasing : points.Pairwise fun p q => p.offset < q.offset
  hasRanges : points.HasRanges
  hasDisjointRanges : points.HasDisjointRanges
  shown : ∀ p ∈ points, p.isHidden = false

/-- An orderly stream can be searched by offset. -/
theorem Orderly.inOffsetOrder (h : points.Orderly) : points.InOffsetOrder :=
  h.increasing.imp Nat.le_of_lt

/-- Dropping the hidden points leaves gaps, but no disorder. -/
theorem Tiles.orderly_visible (h : points.Tiles size) : points.visible.Orderly where
  increasing := h.increasing.filter _
  hasRanges p hp := (h.range_of_mem (List.mem_of_mem_filter hp)).1
  hasDisjointRanges := h.hasDisjointRanges.filter _
  shown p hp := by simpa using (List.mem_filter.1 hp).2

end Stream

/-! ## Portable symbols -/

/-- The points that portable symbols hold for a method come from its blob. -/
theorem PortableSymbols.exists_of_points {symbols : PortableSymbols} {token : Token}
    {points : Stream} (h : symbols.points token = .ok (some points)) :
    ∃ info, symbols.methods.get? token = some info ∧
      Blob.points ⟨symbols.documents, info.codeSize⟩ info.document info.blob = .ok points := by
  unfold PortableSymbols.points at h
  split at h
  · cases h
  · next info hinfo =>
    split at h
    · cases h
    · next hblob =>
      split at h
      · cases h
      · next decoded hdecoded =>
        cases h
        exact ⟨info, hinfo, hblob ▸ hdecoded⟩

/-- The stream of a function is what the symbols hold for it, less the hidden points. -/
theorem SymbolProvider.exists_of_authored {provider : SymbolProvider} {token : Token}
    {stored : Stream} (h : some stored = (provider.authored token).1) :
    ∃ points, provider token = .ok (some points) ∧ stored = points.visible := by
  unfold SymbolProvider.authored at h
  split at h
  · next found hfound =>
    obtain ⟨points, rfl, rfl⟩ := Option.map_eq_some_iff.1 h.symm
    exact ⟨points, hfound, rfl⟩
  · cases h

namespace Session

/-- Decoded points tile the method body from the first start on and are well formed. What a session
over portable symbols stores for a function are the visible ones of such points, and they can be
searched by offset. -/
theorem orderly_of_decoded :
    (∀ {ctx : Blob.Context} {row : Nat} {blob : List UInt8} {points : Stream},
      Blob.points ctx row blob = .ok points →
        points.Tiles ctx.codeSize ∧
          (∀ p ∈ points, p.offset < p.endOffset ∧ p.endOffset ≤ ctx.codeSize ∧
            p.WellFormed ctx.documents) ∧
          ∀ offset, points.firstOffset ctx.codeSize ≤ offset → offset < ctx.codeSize →
            ∃ p ∈ points, p.Covers offset ∧ ∀ q ∈ points, q.Covers offset → q = p) ∧
    ∀ {ν : Type} {s : Session ν} {symbols : PortableSymbols} {token : Token} {stored : Stream},
      s.Reachable → s.symbols = some symbols.points →
        s.cache.authored.get? token = some (some stored) →
          (∃ info points, symbols.methods.get? token = some info ∧
            Blob.points ⟨symbols.documents, info.codeSize⟩ info.document info.blob = .ok points ∧
              stored = points.visible) ∧
          stored.Orderly ∧ stored.InOffsetOrder ∧ ∀ p ∈ stored, p.WellFormed symbols.documents := by
  constructor
  · intro ctx row blob points hpoints
    have htiles := Blob.tiles_of_points hpoints
    refine ⟨htiles, fun p hp => ?_, fun offset hfirst hsize =>
      htiles.existsUnique_covers hfirst hsize⟩
    obtain ⟨hrange, hend⟩ := htiles.range_of_mem hp
    exact ⟨hrange, hend, Blob.wellFormed_of_points hpoints hp⟩
  · intro ν s symbols token stored hreachable hsymbols hstored
    obtain ⟨points, hprovided, rfl⟩ :=
      SymbolProvider.exists_of_authored (hreachable.faithful.authored hsymbols hstored)
    obtain ⟨info, hinfo, hpoints⟩ := PortableSymbols.exists_of_points hprovided
    have horderly := (Blob.tiles_of_points hpoints).orderly_visible
    refine ⟨⟨info, points, hinfo, hpoints, rfl⟩, horderly, horderly.inOffsetOrder, fun p hp => ?_⟩
    exact Blob.wellFormed_of_points hpoints (List.mem_of_mem_filter hp)

/-- A blob of three points: a visible one, a hidden one, and one that is in the second document. -/
def twoDocumentBlob : List UInt8 :=
  [0x00, 0x01, 0x00, 0x00, 0x05, 0x0A, 0x02, 0x03, 0x00, 0x00, 0x00, 0x02, 0x04, 0x00, 0x03, 0x06,
    0x00]

/-- The symbols of a method with that blob. -/
def twoDocumentSymbols : PortableSymbols :=
  PortableSymbols.addMethod ⟨["A.cs", "B.cs"], {}⟩ ⟨0x06000001⟩ ⟨0, twoDocumentBlob, 12⟩

/-- A session over these symbols that was asked for a place in the method. -/
def overPortable : Session Unit :=
  perform { ofFunction [] [] [0] with symbols := some twoDocumentSymbols.points }
    (.resolve (finding ⟨⟨0, 0⟩, ⟨0, 9⟩⟩))

/-- The visible points of the blob. -/
def shownOfBlob : Stream :=
  [⟨0, 3, ⟨10, 2⟩, ⟨10, 7⟩, "A.cs", false⟩, ⟨7, 12, ⟨13, 2⟩, ⟨13, 5⟩, "B.cs", false⟩]

/-- The blob of two documents is decoded, and its visible points are stored without the hidden one. -/
theorem orderly_of_decoded_of_two_documents :
    let points : Stream := [⟨0, 3, ⟨10, 2⟩, ⟨10, 7⟩, "A.cs", false⟩, .hidden 3 7 "A.cs",
      ⟨7, 12, ⟨13, 2⟩, ⟨13, 5⟩, "B.cs", false⟩]
    Blob.points ⟨["A.cs", "B.cs"], 12⟩ 0 twoDocumentBlob = .ok points ∧ points.Tiles 12 ∧
      overPortable.Reachable ∧ overPortable.symbols = some twoDocumentSymbols.points ∧
      overPortable.cache.authored.get? ⟨0x06000001⟩ = some (some shownOfBlob) ∧
      shownOfBlob.Orderly := by
  intro points
  have hpoints : Blob.points ⟨["A.cs", "B.cs"], 12⟩ 0 twoDocumentBlob = .ok points := by cbv
  have hreachable : overPortable.Reachable := .performed _ (.opened rfl)
  have hsymbols : overPortable.symbols = some twoDocumentSymbols.points :=
    (continues_perform _ _).symbols
  have hstored : overPortable.cache.authored.get? ⟨0x06000001⟩ = some (some shownOfBlob) := by
    decide +kernel
  obtain ⟨htiles, -⟩ := orderly_of_decoded.1 hpoints
  obtain ⟨-, horderly, -⟩ := orderly_of_decoded.2 hreachable hsymbols hstored
  exact ⟨hpoints, htiles, hreachable, hsymbols, hstored, horderly⟩

end Session

end Retrace
