import Mathlib.Data.List.Chain
import Retrace.SequencePoint.Blob

/-!
# What decoding guarantees

Whatever bytes a blob consists of, the points that are read from it are in good order:

* `tiles_of_points` : they start in increasing order inside of the method body, and their ranges tile
  the body from the first start on (`Stream.Tiles`);
* `wellFormed_of_points` : each names a document of the table; a hidden point carries the marker for
  hidden text, and a visible one ends behind its start (`SequencePoint.WellFormed`).

Each decoder of a blob has one lemma on what it makes of bytes (`Ensures`). `Record` says what one
record does to the progress of the loop, and the loop keeps that the current document is in the table
and that offsets increase. The loop leaves every range open to the end of the body, and `closeRanges`
shortens all but the last one.
-/

namespace Retrace

/-! ## Results of decoders -/

namespace Decoder

variable {α β : Type} {d : Decoder α} {f : α → Decoder β} {P P' : α → Prop} {Q : β → Prop}

/-- Whatever the decoder reads satisfies `P`. -/
def Ensures (d : Decoder α) (P : α → Prop) : Prop := ∀ c a c', d c = .ok a c' → P a

theorem Ensures.any (d : Decoder α) : Ensures d fun _ => True := fun _ _ _ _ => trivial

/-- A value that is given without reading satisfies what it satisfies. -/
theorem Ensures.pure {a : α} (h : P a) : Ensures (Pure.pure a) P := by
  rintro c _ _ ⟨⟩
  exact h

theorem Ensures.throw (e : DecodeError) : Ensures (throw e) P := by
  rintro c a c' ⟨⟩

/-- What the first decoder ensures may be used to see what the second one ensures. -/
theorem Ensures.bind (hd : Ensures d P) (hf : ∀ a, P a → Ensures (f a) Q) :
    Ensures (d >>= f) Q := by
  intro c b c' h
  simp only [Bind.bind, EStateM.bind] at h
  split at h
  · next a c₁ hc => exact hf a (hd c a c₁ hc) c₁ b c' h
  · cases h

end Decoder

/-! ## Points in good order -/

/-- The point is in a document of the table, and its text is the marker of a hidden point or else ends
behind its start. -/
structure SequencePoint.WellFormed (documents : List String) (p : SequencePoint) : Prop where
  document : ∃ name ∈ documents, p.document = some name
  hidden : p.isHidden = true → p.start = ⟨hiddenLine, 0⟩ ∧ p.stop = ⟨hiddenLine, 0⟩
  visible : p.isHidden = false → p.start < p.stop

/-- The points start in increasing order inside of a body of `size` bytes; each range ends where the
next one starts, and the last one with the body. -/
structure Stream.Tiles (points : Stream) (size : Nat) : Prop where
  increasing : points.Pairwise fun p q => p.offset < q.offset
  inside : ∀ p ∈ points, p.offset < size
  adjacent : points.IsChain fun p q => p.endOffset = q.offset
  reaches : ∀ p ∈ points.getLast?, p.endOffset = size

namespace Blob

open Decoder

variable {ctx : Context} {s : Progress} {documents : List String}

/-! ## The parts of a blob -/

/-- A document that is looked up is in the table. -/
theorem ensures_document (documents : List String) (row : Nat) :
    Ensures (document documents row) (· ∈ documents) := by
  unfold document
  split
  · exact .throw _
  · split
    · next hname => exact .pure (List.mem_of_getElem? hname)
    · exact .throw _

/-- The header names a document of the table. -/
theorem ensures_header (documents : List String) (row : Nat) :
    Ensures (header documents row) (· ∈ documents) := by
  unfold header
  refine (Ensures.any _).bind fun _ _ => ?_
  split
  · exact (Ensures.any _).bind fun row _ => ensures_document documents row
  · exact ensures_document documents row

/-- The offset of a point is the last one with the distance added, and inside of the body. -/
theorem ensures_pointOffset (codeSize : Nat) (last : Option Nat) (distance : Nat) :
    Ensures (pointOffset codeSize last distance) fun offset =>
      offset = last.getD 0 + distance ∧ offset < codeSize := by
  unfold pointOffset
  dsimp only
  split
  · exact .throw _
  · split
    · exact .throw _
    · next hsize => exact .pure ⟨rfl, Nat.lt_of_not_le hsize⟩

/-- Without lines, an extent has no negative columns. -/
theorem ensures_extent : Ensures extent fun (lines, columns) => lines = 0 → 0 ≤ columns := by
  refine (Ensures.any _).bind fun lines _ => ?_
  split
  · exact (Ensures.any _).bind fun columns _ => .pure fun _ => Int.natCast_nonneg columns
  · next hlines => exact (Ensures.any _).bind fun columns _ => .pure fun hzero => absurd hzero hlines

/-- A coordinate that is accepted is the value itself. -/
theorem ensures_coordinate (which : Coordinate) (value : Int) :
    Ensures (coordinate which value) fun n => (n : Int) = value := by
  unfold coordinate
  split
  · next h => exact .pure (Int.toNat_of_nonneg h.1)
  · exact .throw _

/-- The text of a visible point has the extent that was read for it. -/
theorem ensures_span (last : Option LinePosition) (lines : Nat) (columns : Int) :
    Ensures (span last lines columns) fun text =>
      text.stop.line = text.start.line + lines ∧
        (text.stop.character : Int) = text.start.character + columns := by
  refine (Ensures.any _).bind fun (line, column) _ => ?_
  refine (ensures_coordinate .startLine line).bind fun startLine hstartLine => ?_
  refine (ensures_coordinate .startColumn column).bind fun startColumn hstartColumn => ?_
  refine (ensures_coordinate .endLine (line + lines)).bind fun endLine hendLine => ?_
  refine (ensures_coordinate .endColumn (column + columns)).bind fun endColumn hendColumn => ?_
  apply Ensures.pure
  dsimp only
  omega

/-- A point that was read at an offset, with its range left open. -/
structure IsOpen (ctx : Context) (p : SequencePoint) : Prop where
  inside : p.offset < ctx.codeSize
  endOffset : p.endOffset = ctx.codeSize
  wellFormed : p.WellFormed ctx.documents

/-- A point that is read has the given offset and is open. It leaves the document as it was. -/
theorem ensures_point {offset : Nat} (hname : s.document ∈ ctx.documents)
    (hoffset : offset < ctx.codeSize) :
    Ensures (point ctx s offset) fun (p, s') => p.offset = offset ∧ IsOpen ctx p ∧
      s'.document = s.document ∧ s'.lastOffset = some offset := by
  refine ensures_extent.bind fun (lines, columns) hcolumns => ?_
  dsimp only at hcolumns ⊢
  split
  · apply Ensures.pure
    refine ⟨rfl, ⟨hoffset, rfl, ?_⟩, rfl, rfl⟩
    exact ⟨⟨s.document, hname, rfl⟩, fun _ => ⟨rfl, rfl⟩, (nomatch ·)⟩
  · next hextent =>
    refine (ensures_span s.lastStart lines columns).bind fun text ⟨hline, hcolumn⟩ => ?_
    apply Ensures.pure
    refine ⟨rfl, ⟨hoffset, rfl, ?_⟩, rfl, rfl⟩
    refine ⟨⟨s.document, hname, rfl⟩, (nomatch ·), fun _ => ?_⟩
    -- there are lines, or else columns, and then they are positive
    show text.start < text.stop
    rw [LinePosition.lt_iff]
    omega

/-! ## Records -/

/-- What a record does to the progress before it. -/
inductive Record (ctx : Context) (s : Progress) : Option SequencePoint × Progress → Prop
  /-- The document changes. -/
  | switch {name : String} (known : name ∈ ctx.documents) :
    Record ctx s (none, { s with document := name })
  /-- A point behind all others is added. -/
  | point {p : SequencePoint} {s' : Progress} (isOpen : IsOpen ctx p)
    (later : ∀ last ∈ s.lastOffset, last < p.offset) (document : s'.document = s.document)
    (lastOffset : s'.lastOffset = some p.offset) : Record ctx s (some p, s')

/-- A record does one of two things: it adds a point, or it changes the document. -/
theorem ensures_record (hname : s.document ∈ ctx.documents) :
    Ensures (record ctx s) (Record ctx s) := by
  refine (Ensures.any _).bind fun distance _ => ?_
  unfold recordFrom
  split
  · exact (Ensures.any _).bind fun row _ =>
      (ensures_document ctx.documents row).bind fun name hknown => .pure (.switch hknown)
  · next hdistance =>
    refine (ensures_pointOffset ctx.codeSize s.lastOffset distance).bind
      fun offset ⟨hoffset, hinside⟩ => ?_
    refine (ensures_point hname hinside).bind fun (p, s') ⟨hp, hopen, hdocument, hlast⟩ => ?_
    apply Ensures.pure
    refine .point hopen ?_ hdocument (hlast.trans (congrArg some hp.symm))
    intro last hmem
    -- behind another point, distance zero would have been a switch
    rw [Option.mem_def] at hmem
    simp only [hmem, Option.getD_some, Option.isSome_some, and_true] at hoffset hdistance
    omega

/-- Whatever a record does, the document after it is in the table. -/
theorem Record.document_mem {r : Option SequencePoint × Progress} (h : Record ctx s r)
    (hname : s.document ∈ ctx.documents) : r.2.document ∈ ctx.documents := by
  cases h with
  | switch known => exact known
  | point isOpen later document lastOffset => exact document ▸ hname

/-! ## The loop over the records -/

/-- The points of the records from some progress on: they increase from its last offset on, and their
ranges are open. -/
structure Continues (ctx : Context) (lastOffset : Option Nat) (points : Stream) : Prop where
  increasing : points.Pairwise fun p q => p.offset < q.offset
  later : ∀ last ∈ lastOffset, ∀ p ∈ points, last < p.offset
  isOpen : ∀ p ∈ points, IsOpen ctx p

/-- No points go on from anywhere. -/
theorem Continues.nil (lastOffset : Option Nat) : Continues ctx lastOffset [] where
  increasing := .nil
  later _ _ _ hp := nomatch hp
  isOpen _ hp := nomatch hp

/-- A point behind the last offset goes on from it, if the others go on from the point. -/
theorem Continues.cons {lastOffset : Option Nat} {p : SequencePoint} {points : Stream}
    (h : Continues ctx (some p.offset) points) (hopen : IsOpen ctx p)
    (hlater : ∀ last ∈ lastOffset, last < p.offset) : Continues ctx lastOffset (p :: points) where
  increasing := List.pairwise_cons.2 ⟨fun q hq => h.later p.offset rfl q hq, h.increasing⟩
  later last hlast q hq := by
    have hp := hlater last hlast
    rcases List.mem_cons.1 hq with rfl | hq
    · exact hp
    · exact Nat.lt_trans hp (h.later p.offset rfl q hq)
  isOpen q hq := by
    rcases List.mem_cons.1 hq with rfl | hq
    · exact hopen
    · exact h.isOpen q hq

/-- What a record adds comes before the points that follow from its progress on. -/
theorem Record.continues {p : Option SequencePoint} {s' : Progress} {points : Stream}
    (h : Record ctx s (p, s')) (hpoints : Continues ctx s'.lastOffset points) :
    Continues ctx s.lastOffset (p.toList ++ points) := by
  cases h with
  | switch known => exact hpoints
  | point isOpen later document lastOffset =>
    rw [lastOffset] at hpoints
    exact hpoints.cons isOpen later

/-- A value that is mapped was there before. -/
theorem exists_of_map_eq_ok {ε α β : Type} {f : α → β} {x : Except ε α} {b : β}
    (h : x.map f = .ok b) : ∃ a, x = .ok a ∧ b = f a := by
  cases x with
  | error e => cases h
  | ok a => exact ⟨a, rfl, (Except.ok.inj h).symm⟩

/-- The points of a blob go on from the progress that they are read with. -/
theorem continues_pointsFrom {c : Cursor} {points : Stream} (hname : s.document ∈ ctx.documents)
    (h : pointsFrom ctx s c = .ok points) : Continues ctx s.lastOffset points := by
  -- along the loop, the current document stays in the table
  induction s, c using pointsFrom.induct ctx generalizing points with
  | case1 s c hrest =>
    simp only [pointsFrom, hrest, Except.ok.injEq] at h
    subst h
    exact .nil _
  | case2 s c first rest hrest e c' hrecord =>
    rw [pointsFrom_of_error (hrest ▸ List.cons_ne_nil first rest) hrecord] at h
    cases h
  | case3 s c first rest hrest p s' c' hrecord hless ih =>
    have hstep := ensures_record hname c (p, s') c' hrecord
    rw [pointsFrom_of_ok (hrest ▸ List.cons_ne_nil first rest) hrecord] at h
    obtain ⟨later, hlater, rfl⟩ := exists_of_map_eq_ok h
    exact hstep.continues (ih (hstep.document_mem hname) hlater)

/-! ## Closing the ranges -/

/-- To close the ranges changes no offset. -/
theorem map_offset_closeRanges (points : Stream) :
    (closeRanges points).map SequencePoint.offset = points.map SequencePoint.offset := by
  induction points using closeRanges.induct with
  | case1 => rfl
  | case2 p => rfl
  | case3 p q rest ih => rw [closeRanges, List.map_cons, ih]; rfl

/-- Closing the ranges changes nothing but where they end. -/
theorem mem_of_mem_closeRanges {points : Stream} {p : SequencePoint} (h : p ∈ closeRanges points) :
    ∃ q ∈ points, ∃ stop, p = { q with endOffset := stop } := by
  induction points using closeRanges.induct with
  | case1 => cases h
  | case2 q => exact ⟨p, h, p.endOffset, rfl⟩
  | case3 q next rest ih =>
    rcases List.mem_cons.1 h with rfl | h
    · exact ⟨q, List.mem_cons_self, next.offset, rfl⟩
    · obtain ⟨q', hmem, stop, heq⟩ := ih h
      exact ⟨q', List.mem_cons_of_mem q hmem, stop, heq⟩

/-- In particular not the first one. -/
theorem head?_closeRanges (points : Stream) :
    (closeRanges points).head?.map SequencePoint.offset = points.head?.map SequencePoint.offset := by
  rw [← List.head?_map, map_offset_closeRanges, List.head?_map]

/-- Closed ranges end where the next ones start. -/
theorem isChain_closeRanges (points : Stream) :
    (closeRanges points).IsChain fun p q => p.endOffset = q.offset := by
  induction points using closeRanges.induct with
  | case1 => exact .nil
  | case2 p => exact .singleton p
  | case3 p q rest ih =>
    rw [closeRanges, List.isChain_cons]
    refine ⟨fun r hr => ?_, ih⟩
    have hhead := head?_closeRanges (q :: rest)
    rw [Option.mem_def.1 hr] at hhead
    exact (Option.some.inj hhead).symm

/-- The last range is left as it is. -/
theorem getLast?_closeRanges (points : Stream) :
    (closeRanges points).getLast? = points.getLast? := by
  induction points using closeRanges.induct with
  | case1 => rfl
  | case2 p => rfl
  | case3 p q rest ih =>
    rw [List.getLast?_cons_cons, ← ih, closeRanges]
    cases hrest : closeRanges (q :: rest) with
    | nil => cases rest <;> cases hrest
    | cons r others => rfl

/-! ## Whole blobs -/

/-- What is read from a blob: the document that it starts in, and then the records. -/
theorem exists_of_points {row : Nat} {blob : List UInt8} {decoded : Stream} (hblob : blob ≠ [])
    (h : points ctx row blob = .ok decoded) :
    ∃ name c opened, header ctx.documents row (.ofBytes blob) = .ok name c ∧
      pointsFrom ctx ⟨name, none, none⟩ c = .ok opened ∧ Continues ctx none opened ∧
      decoded = closeRanges opened := by
  cases hheader : header ctx.documents row (.ofBytes blob) with
  | error e c =>
    rw [points_of_error hblob hheader] at h
    cases h
  | ok name c =>
    rw [points_of_ok hblob hheader] at h
    have hname := ensures_header ctx.documents row _ name c hheader
    obtain ⟨opened, hopened, rfl⟩ := exists_of_map_eq_ok h
    exact ⟨name, c, opened, rfl, hopened, continues_pointsFrom hname hopened, rfl⟩

/-- The points of a blob come from records that follow on one another. -/
theorem exists_continues_of_points {row : Nat} {blob : List UInt8} {decoded : Stream}
    (h : points ctx row blob = .ok decoded) :
    ∃ opened, Continues ctx none opened ∧ decoded = closeRanges opened := by
  by_cases hblob : blob = []
  · subst hblob
    cases h
    exact ⟨[], .nil none, rfl⟩
  · obtain ⟨-, -, opened, -, -, hcontinues, hdecoded⟩ := exists_of_points hblob h
    exact ⟨opened, hcontinues, hdecoded⟩

/-- Decoded points tile the method body from the first start on. -/
theorem tiles_of_points {row : Nat} {blob : List UInt8} {decoded : Stream}
    (h : points ctx row blob = .ok decoded) : decoded.Tiles ctx.codeSize := by
  obtain ⟨opened, hcontinues, rfl⟩ := exists_continues_of_points h
  refine ⟨?_, ?_, isChain_closeRanges opened, ?_⟩
  · rw [← List.pairwise_map, map_offset_closeRanges, List.pairwise_map]
    exact hcontinues.increasing
  · intro p hp
    obtain ⟨q, hq, stop, rfl⟩ := mem_of_mem_closeRanges hp
    exact (hcontinues.isOpen q hq).inside
  · intro p hp
    rw [getLast?_closeRanges] at hp
    exact (hcontinues.isOpen p (List.mem_of_getLast? hp)).endOffset

/-- Every point that is decoded is well-formed. -/
theorem wellFormed_of_points {row : Nat} {blob : List UInt8} {decoded : Stream}
    (h : points ctx row blob = .ok decoded) {p : SequencePoint} (hp : p ∈ decoded) :
    p.WellFormed ctx.documents := by
  obtain ⟨opened, hcontinues, rfl⟩ := exists_continues_of_points h
  obtain ⟨q, hq, stop, rfl⟩ := mem_of_mem_closeRanges hp
  have hformed := (hcontinues.isOpen q hq).wellFormed
  exact ⟨hformed.document, hformed.hidden, hformed.visible⟩

end Blob

end Retrace
