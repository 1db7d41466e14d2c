import Retrace.Proofs.SequencePoint.Layout

/-!
# Debug information is read back

`points_of_written`: the points of a blob are those that it was written from. Each decoder of a blob
reads the integers of the part that it is named after (`Reads`). The loop over the records keeps
`Follows`: what is remembered from the last record is what the writer of the next one goes by.
-/

namespace Retrace.Blob

open Decoder

variable {ctx : Context} {s : Progress} {documents : List String} {row : Nat} {name : String}

/-- A row of the document table and its name. -/
def Names (documents : List String) (row : Nat) (name : String) : Prop :=
  1 ≤ row ∧ documents[row - 1]? = some name

/-- A row of the table has a name. -/
theorem IsRow.exists_name (h : IsRow documents row) : ∃ name, Names documents row name := by
  obtain ⟨hlow, hhigh⟩ := h
  exact ⟨documents[row - 1], hlow, List.getElem?_eq_getElem (by omega)⟩

/-! ## The parts of a blob -/

/-- The name of a row is looked up without reading anything. -/
theorem reads_document (h : Names documents row name) :
    Reads (document documents row) [] name := by
  obtain ⟨hrow, hname⟩ := h
  obtain ⟨index, rfl⟩ := Nat.exists_eq_succ_of_ne_zero (Nat.one_le_iff_ne_zero.1 hrow)
  have hindex : documents[index]? = some name := hname
  unfold document
  dsimp only [Nat.succ_eq_add_one]
  rw [hindex]
  exact .pure name

/-- The header is read back: the document is the method's own, or the one that is written. -/
theorem reads_header {signature column initial : Nat} (hname : Names documents initial name)
    (hcolumn : column = 0 ∨ column = initial) :
    Reads (header documents column) (headerFields signature column initial) name := by
  refine (reads_compressedUnsigned signature).bind_cons ?_
  rcases Nat.eq_zero_or_pos column with hzero | hpos
  · rw [if_pos hzero, if_pos hzero]
    exact (reads_compressedUnsigned initial).bind_nil (reads_document hname)
  · obtain rfl : column = initial := by omega
    rw [if_neg (by omega), if_neg (by omega)]
    exact (Reads.pure column).bind (reads_document hname)

/-- The offset of a point is worked out from the last one and the distance. -/
theorem reads_pointOffset {codeSize offset : Nat} {last : Option Nat} {distance : Nat}
    (hoffset : last.getD 0 + distance = offset) (hlt : offset < codeSize)
    (hsize : codeSize < wordLimit) : Reads (pointOffset codeSize last distance) [] offset := by
  unfold pointOffset
  dsimp only
  rw [hoffset, if_neg (by omega), if_neg (by omega)]
  exact .pure offset

/-- The extent of a visible point is read back as its lines and columns. -/
theorem reads_extent {text : LineSpan} (h : text.start < text.stop) :
    Reads extent (extentFields text)
      (text.stop.line - text.start.line, text.stop.character - text.start.character) := by
  rw [LinePosition.lt_iff] at h
  unfold extentFields
  split
  · next hline =>
    have hcolumns : ((text.stop.character - text.start.character : Nat) : Int) =
      text.stop.character - text.start.character := by omega
    rw [← hcolumns, hline, Nat.sub_self]
    exact (reads_compressedUnsigned 0).bind_cons
      ((reads_compressedUnsigned _).bind_nil (.pure _))
  · next hline =>
    refine (reads_compressedUnsigned _).bind_cons ?_
    rw [if_neg (by omega)]
    exact (reads_compressedSigned _).bind_nil (.pure _)

/-- An extent of nothing is read back as none. -/
theorem reads_extent_hidden : Reads extent [.unsigned 0, .unsigned 0] (0, 0) :=
  (reads_compressedUnsigned 0).bind_cons ((reads_compressedUnsigned 0).bind_nil (.pure _))

/-- The start of a visible point is read back, absolute or as a difference to the last one. -/
theorem reads_startCoordinates (last : Option LinePosition) (start : LinePosition) :
    Reads (startCoordinates last) (startFields last start) (start.line, start.character) := by
  cases last with
  | none =>
    exact (reads_compressedUnsigned _).bind_cons ((reads_compressedUnsigned _).bind_nil (.pure _))
  | some last =>
    have hline : (last.line : Int) + (start.line - last.line) = start.line := by omega
    have hcolumn : (last.character : Int) + (start.character - last.character) =
      start.character := by omega
    rw [← hline, ← hcolumn]
    refine (reads_compressedSigned _).bind_cons ((reads_compressedSigned _).bind_nil ?_)
    exact .pure _

/-- A coordinate that is a word is accepted. -/
theorem reads_coordinate {which : Coordinate} {value : Int} {n : Nat} (hvalue : value = n)
    (hword : n < wordLimit) : Reads (coordinate which value) [] n := by
  subst hvalue
  unfold coordinate
  rw [if_pos ⟨by omega, by omega⟩]
  exact .pure n

/-- The text of a visible point is read back. -/
theorem reads_span (last : Option LinePosition) {text : LineSpan} (h : text.start < text.stop)
    (hstart : IsWord text.start) (hstop : IsWord text.stop) :
    Reads (span last (text.stop.line - text.start.line)
      (text.stop.character - text.start.character)) (startFields last text.start) text := by
  rw [LinePosition.lt_iff] at h
  refine (reads_startCoordinates last text.start).bind_nil ?_
  refine (reads_coordinate rfl hstart.1).bind ?_
  refine (reads_coordinate rfl hstart.2).bind ?_
  refine (reads_coordinate (n := text.stop.line) (by omega) hstop.1).bind ?_
  refine (reads_coordinate (n := text.stop.character) (by omega) hstop.2).bind ?_
  exact .pure _

/-- The progress after an entry that `s` comes before. -/
def Progress.next (s : Progress) (e : Entry) : Progress :=
  { s with lastOffset := some e.offset, lastStart := e.nextStart s.lastStart }

/-- A point is read back, hidden or not, with its range left open. -/
theorem reads_point {e : Entry} (hfits : e.Fits ctx) (hname : Names ctx.documents e.row s.document) :
    Reads (point ctx s e.offset) (textFields s.lastStart e.text)
      (e.point ctx.documents ctx.codeSize, s.next e) := by
  have hdocument : ctx.documents[e.row - 1]? = some s.document := hname.2
  unfold point Progress.next Entry.point Entry.nextStart
  rw [hdocument]
  cases htext : e.text with
  | none =>
    refine reads_extent_hidden.bind_nil ?_
    exact .pure _
  | some text =>
    obtain ⟨hlt, hstart, hstop⟩ := hfits.text text htext
    refine (reads_extent hlt).bind ?_
    have hvisible : ¬ (text.stop.line - text.start.line = 0 ∧
        (text.stop.character : Int) - text.start.character = 0) := by
      rw [LinePosition.lt_iff] at hlt
      omega
    dsimp only
    rw [if_neg hvisible]
    exact (reads_span s.lastStart hlt hstart hstop).bind_nil (.pure _)

/-! ## Records -/

/-- What is remembered from the last record is what the writer of these entries goes by: the name of
the current document, and that the first entry needs no switch while later ones are further on. -/
structure Follows (ctx : Context) (s : Progress) (current : Nat) (entries : List Entry) : Prop where
  named : Names ctx.documents current s.document
  first : s.lastOffset = none → ∀ e ∈ entries.head?, e.row = current
  later : ∀ last ∈ s.lastOffset, ∀ e ∈ entries, last < e.offset
  increasing : entries.Pairwise fun e f => e.offset < f.offset

/-- The writer and the reader go by the same behind an entry. -/
theorem Follows.next {current : Nat} {e : Entry} {rest : List Entry}
    (h : Follows ctx s current (e :: rest)) (hname : Names ctx.documents e.row s.document) :
    Follows ctx (s.next e) e.row rest where
  named := hname
  first := by
    intro hnone
    cases hnone
  later := by
    intro last hlast f hf
    cases hlast
    exact List.rel_of_pairwise_cons h.increasing hf
  increasing := h.increasing.of_cons

/-- Zero is a switch of the document if it is not in front of the first point. -/
theorem reads_switch (hlast : s.lastOffset.isSome) (hname : Names ctx.documents row name) :
    Reads (record ctx s) [.unsigned 0, .unsigned row] (none, { s with document := name }) := by
  refine (reads_compressedUnsigned 0).bind_cons ?_
  rw [recordFrom, if_pos ⟨rfl, hlast⟩]
  refine (reads_compressedUnsigned row).bind_nil ((reads_document hname).bind_nil ?_)
  exact .pure _

/-- A switch to the document of the first entry keeps everything else. -/
theorem Follows.switch {current : Nat} {e : Entry} {rest : List Entry}
    (h : Follows ctx s current (e :: rest)) (hname : Names ctx.documents e.row name) :
    Follows ctx { s with document := name } e.row (e :: rest) where
  named := hname
  first := by
    intro _ f hf
    cases hf
    rfl
  later := h.later
  increasing := h.increasing

/-- An entry is read back as its point, if it is behind the last one. -/
theorem reads_entry {e : Entry} (hsize : ctx.codeSize < wordLimit) (hfits : e.Fits ctx)
    (hname : Names ctx.documents e.row s.document) (hlater : ∀ last ∈ s.lastOffset, last < e.offset) :
    Reads (record ctx s) (e.fields (s.lastOffset.getD 0) s.lastStart)
      (some (e.point ctx.documents ctx.codeSize), s.next e) := by
  refine (reads_compressedUnsigned _).bind_cons ?_
  -- the distance is zero for the first point only
  have hpoint : ¬ (e.offset - s.lastOffset.getD 0 = 0 ∧ s.lastOffset.isSome) := by
    rintro ⟨hzero, hsome⟩
    obtain ⟨last, hlast⟩ := Option.isSome_iff_exists.1 hsome
    have hlt := hlater last hlast
    rw [hlast, Option.getD_some] at hzero
    omega
  have hoffset : s.lastOffset.getD 0 + (e.offset - s.lastOffset.getD 0) = e.offset := by
    cases hlast : s.lastOffset with
    | none => simp
    | some last =>
      have hlt := hlater last hlast
      rw [Option.getD_some]
      omega
  rw [recordFrom, if_neg hpoint]
  refine (reads_pointOffset hoffset hfits.offset hsize).bind ((reads_point hfits hname).bind_nil ?_)
  exact .pure _

/-- The loop over the records goes on behind the integers of the first one. -/
theorem pointsFrom_of_reads {s' : Progress} {p : Option SequencePoint} {field : Field}
    {fields others : List Field} {bytes : List UInt8}
    (hreads : Reads (record ctx s) (field :: fields) (p, s'))
    (hbytes : Written ((field :: fields) ++ others) bytes) (pos : Nat) :
    ∃ back pos', Written others back ∧
      pointsFrom ctx s ⟨pos, bytes⟩ =
        (pointsFrom ctx s' ⟨pos', back⟩).map (p.toList ++ ·) := by
  obtain ⟨front, back, rfl, hfront, hback⟩ := hbytes.split
  exact ⟨back, pos + front.length, hback,
    pointsFrom_of_ok hbytes.ne_nil (hreads front hfront pos back)⟩

/-- The records of entries are read back, with ranges that reach to the end of the body. -/
theorem pointsFrom_recordFields {current : Nat} {entries : List Entry} {bytes : List UInt8}
    (hsize : ctx.codeSize < wordLimit) (hfits : ∀ e ∈ entries, e.Fits ctx)
    (h : Follows ctx s current entries)
    (hbytes : Written (recordFields current (s.lastOffset.getD 0) s.lastStart entries) bytes)
    (pos : Nat) :
    pointsFrom ctx s ⟨pos, bytes⟩ =
      .ok (entries.map fun e => e.point ctx.documents ctx.codeSize) := by
  induction entries generalizing s current bytes pos with
  | nil =>
    cases hbytes
    rw [pointsFrom]
    rfl
  | cons e rest ih =>
    -- the entry itself and what is behind it, once the document is the current one
    have hentry : ∀ {t : Progress} {bytes : List UInt8} (pos : Nat),
        Follows ctx t e.row (e :: rest) →
        Written (e.fields (t.lastOffset.getD 0) t.lastStart ++
          recordFields e.row e.offset (e.nextStart t.lastStart) rest) bytes →
        pointsFrom ctx t ⟨pos, bytes⟩ =
          .ok ((e :: rest).map fun e => e.point ctx.documents ctx.codeSize) := by
      intro t bytes pos hfollows hbytes
      have hreads := reads_entry hsize (hfits e List.mem_cons_self) hfollows.named fun last hlast =>
        hfollows.later last hlast e List.mem_cons_self
      obtain ⟨back, pos', hback, hstep⟩ := pointsFrom_of_reads hreads hbytes pos
      rw [hstep, ih (fun f hf => hfits f (List.mem_cons_of_mem e hf))
        (hfollows.next hfollows.named) hback pos']
      rfl
    rw [recordFields] at hbytes
    by_cases hrow : e.row = current
    · subst hrow
      rw [switchFields, if_pos rfl, List.nil_append] at hbytes
      exact hentry pos h hbytes
    · -- a document is only switched behind a point, since the first entry is in the initial one
      have hlast : s.lastOffset.isSome := by
        rw [Option.isSome_iff_ne_none]
        exact fun hnone => hrow (h.first hnone e rfl)
      obtain ⟨name, hname⟩ := (hfits e List.mem_cons_self).row.exists_name
      rw [switchFields, if_neg hrow] at hbytes
      obtain ⟨back, pos', hback, hstep⟩ :=
        pointsFrom_of_reads (reads_switch hlast hname) hbytes pos
      rw [hstep, hentry pos' (h.switch hname) hback]
      rfl

/-! ## Whole blobs -/

/-- Closing the ranges of open points gives the points of the entries. -/
theorem closeRanges_map_point (entries : List Entry) :
    closeRanges (entries.map fun e => e.point ctx.documents ctx.codeSize) =
      entryPoints ctx entries := by
  induction entries with
  | nil => rfl
  | cons e rest ih =>
    cases rest with
    | nil => rfl
    | cons f rest =>
      have hend : { e.point ctx.documents ctx.codeSize with
          endOffset := (f.point ctx.documents ctx.codeSize).offset } =
          e.point ctx.documents f.offset := by
        obtain ⟨offset, row, _ | text⟩ := f
        · obtain ⟨_, _, _ | _⟩ := e <;> rfl
        · obtain ⟨_, _, _ | _⟩ := e <;> rfl
      rw [entryPoints, ← ih]
      exact congrArg (· :: _) hend

/-- The points of a blob are those that it was written from, however wide each of its integers is
written. -/
theorem points_of_written {signature column initial : Nat} {entries : List Entry}
    {blob : List UInt8} (hentries : Writable ctx column initial entries)
    (hblob : Written (blobFields signature column initial entries) blob) :
    points ctx column blob = .ok (entryPoints ctx entries) := by
  obtain ⟨name, hname⟩ := hentries.document.exists_name
  obtain ⟨front, back, rfl, hfront, hback⟩ := hblob.split
  have hheader := reads_header hname hentries.own front hfront 0 back
  have hstart : Follows ctx ⟨name, none, none⟩ initial entries := {
    named := hname
    first := fun _ => hentries.first
    later := fun last hlast => by cases hlast
    increasing := hentries.increasing }
  have hpoints := pointsFrom_recordFields hentries.size hentries.fits hstart hback
    (0 + front.length)
  obtain ⟨first, rest, hrest⟩ := List.exists_cons_of_ne_nil hblob.ne_nil
  rw [hrest] at hheader ⊢
  rw [points]
  dsimp only [Cursor.ofBytes]
  rw [hheader]
  dsimp only
  rw [hpoints, Except.map, closeRanges_map_point]

/-- Four points of two documents, one of them hidden, with three integers that are written wider than
they need to be. -/
theorem points_of_written_of_two_documents :
    let ctx : Context := ⟨["A.cs", "B.cs"], 12⟩
    let entries : List Entry := [⟨0, 1, some ⟨⟨10, 2⟩, ⟨10, 7⟩⟩⟩, ⟨3, 1, some ⟨⟨12, 1⟩, ⟨13, 5⟩⟩⟩,
      ⟨7, 1, none⟩, ⟨9, 2, some ⟨⟨15, 1⟩, ⟨15, 4⟩⟩⟩]
    let blob : List UInt8 := [0x00, 0x80, 0x01, 0x00, 0x00, 0x05, 0x0A, 0x02,
      0x03, 0x01, 0x08, 0x80, 0x04, 0xDF, 0xFF, 0xFF, 0xFF, 0x04, 0x00, 0x00,
      0x00, 0x02, 0x02, 0x00, 0x03, 0x06, 0x00]
    Writable ctx 0 1 entries ∧ Written (blobFields 0 0 1 entries) blob ∧
      points ctx 0 blob = .ok [⟨0, 3, ⟨10, 2⟩, ⟨10, 7⟩, "A.cs", false⟩,
        ⟨3, 7, ⟨12, 1⟩, ⟨13, 5⟩, "A.cs", false⟩, .hidden 7 9 "A.cs",
        ⟨9, 12, ⟨15, 1⟩, ⟨15, 4⟩, "B.cs", false⟩] := by
  intro ctx entries blob
  have hentries : Writable ctx 0 1 entries :=
    { size := by decide
      document := by decide
      own := .inl rfl
      first := by decide
      increasing := by decide
      fits := by decide }
  have hblob : Written (blobFields 0 0 1 entries) blob :=
    -- the header
    .cons (.unsigned (w := .one) (by decide)) <| .cons (.unsigned (w := .two) (by decide)) <|
    -- the first point
    .cons (.unsigned (w := .one) (by decide)) <| .cons (.unsigned (w := .one) (by decide)) <|
    .cons (.unsigned (w := .one) (by decide)) <| .cons (.unsigned (w := .one) (by decide)) <|
    .cons (.unsigned (w := .one) (by decide)) <|
    -- the second point
    .cons (.unsigned (w := .one) (by decide)) <| .cons (.unsigned (w := .one) (by decide)) <|
    .cons (.signed (w := .one) (by decide) (by decide)) <|
    .cons (.signed (w := .two) (by decide) (by decide)) <|
    .cons (.signed (w := .four) (by decide) (by decide)) <|
    -- the hidden point
    .cons (.unsigned (w := .one) (by decide)) <| .cons (.unsigned (w := .one) (by decide)) <|
    .cons (.unsigned (w := .one) (by decide)) <|
    -- the switch and the last point
    .cons (.unsigned (w := .one) (by decide)) <| .cons (.unsigned (w := .one) (by decide)) <|
    .cons (.unsigned (w := .one) (by decide)) <| .cons (.unsigned (w := .one) (by decide)) <|
    .cons (.unsigned (w := .one) (by decide)) <|
    .cons (.signed (w := .one) (by decide) (by decide)) <|
    .cons (.signed (w := .one) (by decide) (by decide)) .nil
  exact ⟨hentries, hblob, points_of_written hentries hblob⟩

end Retrace.Blob
