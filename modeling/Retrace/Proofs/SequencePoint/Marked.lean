import Retrace.Proofs.SequencePoint.Decoded
import Retrace.Proofs.SequencePoint.RoundTrip

/-!
# The marker of hidden points

Decoding takes a point for hidden if its text has no extent, and gives it the line of the marker.
That no visible point has this line is not checked anywhere. Its line is read as an integer for the
first visible point and as a distance from the last one after that, so whether it is the marker's
depends on all the records in front. `Accumulate` says which texts the visible points of a method
can have, one behind the other:

* `accumulate_of_points` : the texts of the visible points of any blob accumulate;
* `exists_points_of_accumulate` : texts that accumulate are those of the visible points of some
  blob.

Nothing in `Accumulate` keeps a text off the marker's line (`points_marked`).
-/

namespace Retrace

/-- The source text of a point. -/
def SequencePoint.text (p : SequencePoint) : LineSpan := ⟨p.start, p.stop⟩

/-- The source texts of the visible points. -/
def Stream.texts (points : Stream) : List LineSpan := points.visible.map SequencePoint.text

namespace Decoder

variable {α : Type} {d : Decoder α} {P Q : α → Prop}

/-- A decoder ensures two things together if it ensures each of them. -/
theorem Ensures.and (hp : Ensures d P) (hq : Ensures d Q) : Ensures d fun a => P a ∧ Q a :=
  fun c a c' h => ⟨hp c a c' h, hq c a c' h⟩

/-! ## The range of compressed integers -/

/-- A compressed value is one that its width can hold. -/
theorem ensures_compressed : Ensures compressed fun (w, n) => n < w.limit := by
  refine (Ensures.any byte).bind fun first _ => ?_
  unfold compressedFrom
  split
  · next hone => exact .pure (UInt8.lt_iff_toNat_lt.1 hone)
  · split
    · refine (Ensures.any byte).bind fun second _ => .pure ?_
      have hsecond := second.toNat_lt
      show _ < 0x4000
      omega
    · split
      · refine (Ensures.any byte).bind fun second _ => (Ensures.any byte).bind fun third _ =>
          (Ensures.any byte).bind fun fourth _ => .pure ?_
        have hsecond := second.toNat_lt
        have hthird := third.toNat_lt
        have hfourth := fourth.toNat_lt
        show _ < 0x20000000
        omega
      · exact .throw _

/-- An unsigned integer that is read can be written. -/
theorem ensures_compressedUnsigned :
    Ensures compressedUnsigned fun n => (Field.unsigned n).Fits := by
  refine ensures_compressed.bind fun (w, n) hn => .pure ?_
  have hwidth : w.limit ≤ Width.four.limit := by cases w <;> decide
  exact Nat.lt_of_lt_of_le hn hwidth

/-- A signed integer that is read can be written. -/
theorem ensures_compressedSigned : Ensures compressedSigned fun v => (Field.signed v).Fits := by
  refine ensures_compressed.bind fun (w, n) hn => .pure ?_
  have hwidth : w.signedLimit ≤ Width.four.signedLimit := by cases w <;> decide
  have hlimit := w.limit_eq
  dsimp only at hn
  show -(Width.four.signedLimit : Int) ≤ w.unrotate n ∧ w.unrotate n < Width.four.signedLimit
  unfold Width.unrotate
  split
  · omega
  · omega

end Decoder

namespace Blob

open Decoder

variable {ctx : Context} {s : Progress} {last : Option LinePosition} {text : LineSpan}
  {texts : List LineSpan}

/-! ## Texts of visible points -/

/-- The text of a visible point, given the start of the last one: 32 bits hold its lines and
columns, and four bytes hold each of the integers of its extent and of its start. -/
structure Storable (last : Option LinePosition) (text : LineSpan) : Prop where
  lt : text.start < text.stop
  start : IsWord text.start
  stop : IsWord text.stop
  extent : ∀ field ∈ extentFields text, field.Fits
  reach : ∀ field ∈ startFields last text.start, field.Fits

/-- The texts of visible points in the order of their records, each given the start of the one
before. -/
inductive Accumulate : Option LinePosition → List LineSpan → Prop
  | nil {last : Option LinePosition} : Accumulate last []
  | cons {last : Option LinePosition} {text : LineSpan} {rest : List LineSpan}
    (first : Storable last text) (later : Accumulate (some text.start) rest) :
    Accumulate last (text :: rest)

/-! ## What is read accumulates -/

/-- The integers of an extent, told from its lines and columns. -/
def ExtentFits (lines : Nat) (columns : Int) : Prop :=
  (Field.unsigned lines).Fits ∧
    if lines = 0 then 0 ≤ columns ∧ columns < Width.four.limit else (Field.signed columns).Fits

/-- An extent that is read can be written. -/
theorem ensures_extent_fits : Ensures extent fun (lines, columns) => ExtentFits lines columns := by
  refine ensures_compressedUnsigned.bind fun lines hlines => ?_
  split
  · next hzero =>
    refine ensures_compressedUnsigned.bind fun columns hcolumns => .pure ⟨hlines, ?_⟩
    rw [if_pos hzero]
    exact ⟨Int.natCast_nonneg columns, Int.ofNat_lt.2 hcolumns⟩
  · next hzero =>
    refine ensures_compressedSigned.bind fun columns hcolumns => .pure ⟨hlines, ?_⟩
    rw [if_neg hzero]
    exact hcolumns

/-- The extent of a text fits if its lines and columns, told by its two ends, do. -/
theorem ExtentFits.fits {lines : Nat} {columns : Int} (h : ExtentFits lines columns)
    (hline : text.stop.line = text.start.line + lines)
    (hcolumn : (text.stop.character : Int) = text.start.character + columns) :
    ∀ field ∈ extentFields text, field.Fits := by
  obtain ⟨hlines, hcolumns⟩ := h
  have hlinesEq : text.stop.line - text.start.line = lines := by omega
  have hcolumnsEq : (text.stop.character : Int) - text.start.character = columns := by omega
  intro field hfield
  unfold extentFields at hfield
  split at hfield
  · next hsame =>
    rw [if_pos (by omega)] at hcolumns
    rcases List.mem_pair.1 hfield with rfl | rfl
    · exact Nat.zero_lt_succ _
    · show text.stop.character - text.start.character < Width.four.limit
      omega
  · next hother =>
    rw [if_neg (by omega)] at hcolumns
    rcases List.mem_pair.1 hfield with rfl | rfl
    · rwa [hlinesEq]
    · rwa [hcolumnsEq]

/-- The coordinates that are read are those of a start that can be told from the last one. -/
theorem ensures_startCoordinates (last : Option LinePosition) :
    Ensures (startCoordinates last) fun (line, column) => ∀ start : LinePosition,
      start.line = line → start.character = column →
        ∀ field ∈ startFields last start, field.Fits := by
  cases last with
  | none =>
    refine ensures_compressedUnsigned.bind fun line hline =>
      ensures_compressedUnsigned.bind fun column hcolumn => .pure ?_
    intro start hstart hcharacter field hfield
    rcases List.mem_pair.1 hfield with rfl | rfl
    · rwa [Int.ofNat_inj.1 hstart]
    · rwa [Int.ofNat_inj.1 hcharacter]
  | some last =>
    refine ensures_compressedSigned.bind fun line hline =>
      ensures_compressedSigned.bind fun column hcolumn => .pure ?_
    intro start hstart hcharacter field hfield
    have hlines : (start.line : Int) - last.line = line := by omega
    have hcolumns : (start.character : Int) - last.character = column := by omega
    rcases List.mem_pair.1 hfield with rfl | rfl
    · rwa [hlines]
    · rwa [hcolumns]

/-- A coordinate that is accepted is a word. -/
theorem ensures_coordinate_word (which : Coordinate) (value : Int) :
    Ensures (coordinate which value) (· < wordLimit) := by
  unfold coordinate
  split
  · next h =>
    apply Ensures.pure
    omega
  · exact .throw _

/-- The text of a visible point has words as its coordinates, and its start is near enough to the
last one to be written. -/
theorem ensures_span_reach (last : Option LinePosition) (lines : Nat) (columns : Int) :
    Ensures (span last lines columns) fun text => IsWord text.start ∧ IsWord text.stop ∧
      ∀ field ∈ startFields last text.start, field.Fits := by
  refine (ensures_startCoordinates last).bind fun (line, column) hreach => ?_
  have hcoordinate := fun which value =>
    (ensures_coordinate which value).and (ensures_coordinate_word which value)
  refine (hcoordinate .startLine line).bind fun startLine ⟨hstartLine, hline⟩ => ?_
  refine (hcoordinate .startColumn column).bind fun startColumn ⟨hstartColumn, hcolumn⟩ => ?_
  refine (ensures_coordinate_word .endLine _).bind fun endLine hendLine => ?_
  refine (ensures_coordinate_word .endColumn _).bind fun endColumn hendColumn => ?_
  apply Ensures.pure
  exact ⟨⟨hline, hcolumn⟩, ⟨hendLine, hendColumn⟩, hreach _ hstartLine hstartColumn⟩

/-- Texts that accumulate behind a point do so with the point in front. -/
theorem ensures_point_accumulate {offset : Nat} :
    Ensures (point ctx s offset) fun (p, s') => ∀ texts, Accumulate s'.lastStart texts →
      Accumulate s.lastStart (Stream.texts [p] ++ texts) := by
  refine (ensures_extent.and ensures_extent_fits).bind fun (lines, columns) ⟨hsign, hextent⟩ => ?_
  dsimp only at hsign hextent ⊢
  split
  · exact .pure fun texts htexts => htexts
  · next hvisible =>
    refine ((ensures_span s.lastStart lines columns).and (ensures_span_reach _ _ _)).bind
      fun text ⟨⟨hline, hcolumn⟩, hstart, hstop, hreach⟩ => .pure ?_
    intro texts htexts
    refine .cons ⟨?_, hstart, hstop, hextent.fits hline hcolumn, hreach⟩ htexts
    -- there are lines, or else columns, and then they are positive
    show text.start < text.stop
    rw [LinePosition.lt_iff]
    omega

/-- A record puts its text, if it has one, in front of those that go on from it. -/
theorem ensures_record_accumulate :
    Ensures (record ctx s) fun (p, s') => ∀ texts, Accumulate s'.lastStart texts →
      Accumulate s.lastStart (Stream.texts p.toList ++ texts) := by
  refine (Ensures.any _).bind fun distance _ => ?_
  unfold recordFrom
  split
  · exact (Ensures.any _).bind fun row _ => (Ensures.any _).bind fun name _ =>
      .pure fun texts htexts => htexts
  · exact (Ensures.any _).bind fun offset _ =>
      ensures_point_accumulate.bind fun (p, s') hp => .pure hp

/-- The texts of the points of a blob go on from the progress that they are read with. -/
theorem accumulate_pointsFrom {c : Cursor} {points : Stream} (h : pointsFrom ctx s c = .ok points) :
    Accumulate s.lastStart points.texts := by
  induction s, c using pointsFrom.induct ctx generalizing points with
  | case1 s c hrest =>
    simp only [pointsFrom, hrest, Except.ok.injEq] at h
    subst h
    exact .nil
  | case2 s c first rest hrest e c' hrecord =>
    rw [pointsFrom_of_error (hrest ▸ List.cons_ne_nil first rest) hrecord] at h
    cases h
  | case3 s c first rest hrest p s' c' hrecord hless ih =>
    rw [pointsFrom_of_ok (hrest ▸ List.cons_ne_nil first rest) hrecord] at h
    obtain ⟨later, hlater, rfl⟩ := exists_of_map_eq_ok h
    have hstep := ensures_record_accumulate c (p, s') c' hrecord (Stream.texts later) (ih hlater)
    rw [Stream.texts, Stream.visible, List.filter_append, List.map_append]
    exact hstep

/-- To close the ranges changes no text. -/
theorem texts_closeRanges (points : Stream) : Stream.texts (closeRanges points) = points.texts := by
  induction points using closeRanges.induct with
  | case1 => rfl
  | case2 p => rfl
  | case3 p q rest ih =>
    unfold Stream.texts Stream.visible at ih ⊢
    rw [closeRanges, List.filter_cons, List.filter_cons]
    dsimp only
    split
    · rw [List.map_cons, List.map_cons, ih]
      rfl
    · exact ih

/-- The texts that are decoded go on from one another, the first one from nothing. -/
theorem accumulate_of_points {row : Nat} {blob : List UInt8} {decoded : Stream}
    (h : points ctx row blob = .ok decoded) : Accumulate none decoded.texts := by
  by_cases hblob : blob = []
  · subst hblob
    cases h
    exact .nil
  · obtain ⟨name, c, opened, -, hopened, -, rfl⟩ := exists_of_points hblob h
    rw [texts_closeRanges]
    exact accumulate_pointsFrom hopened

/-! ## What accumulates can be written -/

/-- An entry for each text, one offset behind the other. -/
def entriesFrom (offset : Nat) : List LineSpan → List Entry
  | [] => []
  | text :: rest => ⟨offset, 1, some text⟩ :: entriesFrom (offset + 1) rest

/-- The entries for texts have these texts. -/
theorem filterMap_text_entriesFrom (offset : Nat) (texts : List LineSpan) :
    (entriesFrom offset texts).filterMap Entry.text = texts := by
  induction texts generalizing offset with
  | nil => rfl
  | cons text rest ih => exact congrArg (text :: ·) (ih (offset + 1))

/-- The entry for a text has one of the offsets that are counted, and the text. -/
theorem of_mem_entriesFrom {offset : Nat} {e : Entry} (h : e ∈ entriesFrom offset texts) :
    offset ≤ e.offset ∧ e.offset < offset + texts.length ∧ e.row = 1 ∧
      ∀ text ∈ e.text, text ∈ texts := by
  induction texts generalizing offset with
  | nil => cases h
  | cons first rest ih =>
    rw [List.length_cons]
    rcases List.mem_cons.1 h with rfl | h
    · refine ⟨Nat.le_refl _, Nat.lt_add_of_pos_right (Nat.succ_pos _), rfl, ?_⟩
      rintro text ⟨⟩
      exact List.mem_cons_self
    · obtain ⟨hlow, hhigh, hrow, htext⟩ := ih h
      refine ⟨by omega, by omega, hrow, fun text hmem => ?_⟩
      exact List.mem_cons_of_mem first (htext text hmem)

/-- The offsets of entries for texts increase. -/
theorem pairwise_entriesFrom (offset : Nat) (texts : List LineSpan) :
    (entriesFrom offset texts).Pairwise fun e f => e.offset < f.offset := by
  induction texts generalizing offset with
  | nil => exact .nil
  | cons text rest ih => exact List.pairwise_cons.2 ⟨fun f hf => (of_mem_entriesFrom hf).1, ih _⟩

/-- Each of the texts can be stored behind some other one. -/
theorem Accumulate.storable (h : Accumulate last texts) (hmem : text ∈ texts) :
    ∃ last, Storable last text := by
  induction h with
  | nil => cases hmem
  | cons first later ih =>
    rcases List.mem_cons.1 hmem with rfl | hmem
    · exact ⟨_, first⟩
    · exact ih hmem

/-- Texts that go on from one another can be written, one record each. -/
theorem Accumulate.fits (h : Accumulate last texts) {offset lastOffset : Nat}
    (hoffset : offset ≤ lastOffset + 1) :
    ∀ field ∈ recordFields 1 lastOffset last (entriesFrom offset texts), field.Fits := by
  induction h generalizing offset lastOffset with
  | nil => exact fun field hfield => nomatch hfield
  | @cons last text rest first later ih =>
    intro field hfield
    -- the row stays the same, so that there is no switch
    rcases List.mem_append.1 hfield with hfield | hfield
    · cases hfield
    · rcases List.mem_append.1 hfield with hfield | hfield
      · rcases List.mem_cons.1 hfield with rfl | hfield
        · show offset - lastOffset < 0x20000000
          omega
        · rcases List.mem_append.1 hfield with hfield | hfield
          · exact first.extent field hfield
          · exact first.reach field hfield
      · exact ih (Nat.le_refl _) field hfield

/-- The points of entries have the texts of the entries that have any. -/
theorem texts_entryPoints (entries : List Entry) :
    Stream.texts (entryPoints ctx entries) = entries.filterMap Entry.text := by
  rw [← closeRanges_map_point, texts_closeRanges]
  induction entries with
  | nil => rfl
  | cons e rest ih =>
    obtain ⟨offset, row, _ | text⟩ := e
    · exact ih
    · exact congrArg (text :: ·) ih

/-- Texts that accumulate can be written, one point for each, if the body has room for them. -/
theorem exists_points_of_accumulate (hdocuments : ctx.documents ≠ [])
    (hsize : ctx.codeSize < wordLimit) (hroom : texts.length ≤ ctx.codeSize)
    (h : Accumulate none texts) :
    ∃ blob decoded, points ctx 1 blob = .ok decoded ∧ decoded.texts = texts := by
  have hrow : IsRow ctx.documents 1 := ⟨Nat.le_refl 1, List.length_pos_of_ne_nil hdocuments⟩
  have hentries : Writable ctx 1 1 (entriesFrom 0 texts) := {
    size := hsize
    document := hrow
    own := .inr rfl
    first := fun e he => (of_mem_entriesFrom (List.mem_of_mem_head? he)).2.2.1
    increasing := pairwise_entriesFrom 0 texts
    fits := by
      intro e he
      obtain ⟨-, hhigh, hone, htexts⟩ := of_mem_entriesFrom he
      refine ⟨hone ▸ hrow, by omega, fun text htext => ?_⟩
      obtain ⟨_, hstorable⟩ := h.storable (htexts text htext)
      exact ⟨hstorable.lt, hstorable.start, hstorable.stop⟩ }
  have hfields : ∀ field ∈ blobFields 0 1 1 (entriesFrom 0 texts), field.Fits := by
    intro field hfield
    rcases List.mem_cons.1 hfield with rfl | hfield
    · exact Nat.zero_lt_succ _
    · exact h.fits (Nat.zero_le _) field hfield
  obtain ⟨blob, hblob⟩ := exists_written hfields
  refine ⟨blob, _, points_of_written hentries hblob, ?_⟩
  rw [texts_entryPoints, filterMap_text_entriesFrom]

/-! ## The marker -/

section Marker

variable {row : Nat} {blob : List UInt8} {decoded : Stream} {p : SequencePoint}

/-- A decoded point is marked as hidden if and only if its text is empty. -/
theorem isHidden_iff_of_points (h : points ctx row blob = .ok decoded) (hp : p ∈ decoded) :
    p.isHidden = true ↔ p.start = p.stop := by
  have hformed := wellFormed_of_points h hp
  constructor
  · intro hflag
    rw [(hformed.hidden hflag).1, (hformed.hidden hflag).2]
  · intro hempty
    by_contra hflag
    have hlt := hformed.visible (Bool.not_eq_true _ ▸ hflag)
    rw [hempty, LinePosition.lt_iff] at hlt
    omega

/-- A point that is marked as hidden has the text that marks hidden points. -/
theorem text_of_isHidden (h : points ctx row blob = .ok decoded) (hp : p ∈ decoded)
    (hflag : p.isHidden = true) : p.text = ⟨⟨hiddenLine, 0⟩, ⟨hiddenLine, 0⟩⟩ := by
  obtain ⟨hstart, hstop⟩ := (wellFormed_of_points h hp).hidden hflag
  rw [SequencePoint.text, hstart, hstop]

/-- Flag and marker agree unless the text of a visible point starts on the marker's line. -/
theorem forall_hidden_iff_marked_iff (h : points ctx row blob = .ok decoded) :
    (∀ p ∈ decoded, p.isHidden = true ↔ p.start.line = hiddenLine) ↔
      ∀ text ∈ decoded.texts, text.start.line ≠ hiddenLine := by
  constructor
  · intro hagree text htext hline
    obtain ⟨p, hp, rfl⟩ := List.mem_map.1 htext
    obtain ⟨hmem, hflag⟩ := List.mem_filter.1 hp
    rw [(hagree p hmem).2 hline] at hflag
    cases hflag
  · intro hoff p hp
    constructor
    · intro hflag
      exact congrArg (·.start.line) (text_of_isHidden h hp hflag)
    · intro hline
      by_contra hflag
      have hvisible : p ∈ Stream.visible decoded := List.mem_filter.2 ⟨hp, by simpa using hflag⟩
      exact hoff p.text (List.mem_map_of_mem hvisible) hline

end Marker

/-- A decoded point is flagged as hidden iff its text is empty, and then it has the line of the
marker. The texts of the visible points accumulate, and any that do are those of a method with a
body that is large enough. So flag and marker agree on the points of a blob unless a text of a
visible point starts on the marker's line, and there are blobs where one does. -/
theorem points_marked {ctx : Context} :
    (∀ {row : Nat} {blob : List UInt8} {decoded : Stream}, points ctx row blob = .ok decoded →
      (∀ p ∈ decoded, p.isHidden = true ↔ p.start = p.stop) ∧
      (∀ p ∈ decoded, p.isHidden = true → p.text = ⟨⟨hiddenLine, 0⟩, ⟨hiddenLine, 0⟩⟩) ∧
      Accumulate none decoded.texts ∧
      ((∀ p ∈ decoded, p.isHidden = true ↔ p.start.line = hiddenLine) ↔
        ∀ text ∈ decoded.texts, text.start.line ≠ hiddenLine)) ∧
    (ctx.documents ≠ [] → ctx.codeSize < wordLimit → ∀ {texts : List LineSpan},
      texts.length ≤ ctx.codeSize → Accumulate none texts →
        ∃ blob decoded, points ctx 1 blob = .ok decoded ∧ decoded.texts = texts) := by
  refine ⟨fun {row blob decoded} h => ?_, fun hdocuments hsize texts hroom htexts =>
    exists_points_of_accumulate hdocuments hsize hroom htexts⟩
  exact ⟨fun p hp => isHidden_iff_of_points h hp, fun p hp => text_of_isHidden h hp,
    accumulate_of_points h, forall_hidden_iff_marked_iff h⟩

/-- The bytes of three points: two visible ones, where the second one is one line behind the first
one, and a hidden one. -/
def markedBlob : List UInt8 :=
  [0x00, 0x00, 0x00, 0x05, 0xC0, 0xFE, 0xEF, 0xED, 0x02, 0x01, 0x00, 0x05, 0x02, 0x00,
    0x01, 0x00, 0x00]

/-- The second visible point is on the marker's line. -/
theorem points_markedBlob : points ⟨["A.cs"], 6⟩ 1 markedBlob = .ok [
    ⟨0, 1, ⟨hiddenLine - 1, 2⟩, ⟨hiddenLine - 1, 7⟩, "A.cs", false⟩,
    ⟨1, 2, ⟨hiddenLine, 2⟩, ⟨hiddenLine, 7⟩, "A.cs", false⟩, .hidden 2 6 "A.cs"] := by cbv

/-- The second point of the blob is on the line that marks hidden points and is not marked as
hidden. -/
theorem points_marked_of_second :
    ∃ decoded, points ⟨["A.cs"], 6⟩ 1 markedBlob = .ok decoded ∧ Accumulate none decoded.texts ∧
      (∃ p ∈ decoded.visible, p.start.line = hiddenLine) ∧
      ¬ (∀ p ∈ decoded, p.isHidden = true ↔ p.start.line = hiddenLine) ∧
      ∃ blob again, points ⟨["A.cs"], 6⟩ 1 blob = .ok again ∧ again.texts = decoded.texts := by
  obtain ⟨hdecoded, hwritten⟩ := @points_marked ⟨["A.cs"], 6⟩
  obtain ⟨-, -, haccumulate, hagree⟩ := hdecoded points_markedBlob
  have hagain := hwritten (List.cons_ne_nil _ _) (by decide) (by decide) haccumulate
  refine ⟨_, points_markedBlob, haccumulate, ?_, ?_, hagain⟩
  · exact ⟨_, List.mem_cons_of_mem _ List.mem_cons_self, rfl⟩
  · intro h
    exact hagree.1 h _ (List.mem_cons_of_mem _ List.mem_cons_self) rfl

/-- That flag and marker agree on every decoded point is false. -/
theorem not_forall_hidden_iff_marked :
    ¬ ∀ (ctx : Context) (row : Nat) (blob : List UInt8) (decoded : Stream),
      points ctx row blob = .ok decoded →
        ∀ p ∈ decoded, p.isHidden = true ↔ p.start.line = hiddenLine := by
  intro h
  have hsecond := h _ _ _ _ points_markedBlob _ (List.mem_cons_of_mem _ List.mem_cons_self)
  cases hsecond.2 rfl

end Blob

end Retrace
