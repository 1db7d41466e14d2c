import Retrace.Proofs.Bytes.Written
import Retrace.SequencePoint.Blob

/-!
# The layout of debug information

How the points of a method are written. An `Entry` is a point as a compiler has it: its offset, the
row of its document and its source text. `blobFields` lists the integers of the blob in the order of
the format: the header, then for every entry a switch of the document if the row changes, the
distance in offsets, the extent and the start. `Written` turns the integers into bytes.

`Writable` collects what the entries of a method satisfy, and `entryPoints` are the points that a
reader should find.
-/

namespace Retrace.Blob

/-- A point of a method, as it is written. -/
structure Entry where
  offset : Nat
  /-- The row of the document table; rows count from one. -/
  row : Nat
  /-- The source text; a hidden point has none. -/
  text : Option LineSpan

/-! ## Integers -/

/-- The integers before the first entry. The initial document is written if the method's own row
does not name it. -/
def headerFields (signature column initial : Nat) : List Field :=
  .unsigned signature :: if column = 0 then [.unsigned initial] else []

/-- The integers that make `row` the current document. -/
def switchFields (current row : Nat) : List Field :=
  if row = current then [] else [.unsigned 0, .unsigned row]

/-- The integers of a visible point's extent. Its columns are signed if it spans lines. -/
def extentFields (text : LineSpan) : List Field :=
  if text.start.line = text.stop.line then
    [.unsigned 0, .unsigned (text.stop.character - text.start.character)]
  else
    [.unsigned (text.stop.line - text.start.line),
      .signed (text.stop.character - text.start.character)]

/-- The integers of a visible point's start, given the start of the last visible point. -/
def startFields (last : Option LinePosition) (start : LinePosition) : List Field :=
  match last with
  | none => [.unsigned start.line, .unsigned start.character]
  | some last => [.signed (start.line - last.line), .signed (start.character - last.character)]

/-- The integers of a point's source text. -/
def textFields (last : Option LinePosition) : Option LineSpan → List Field
  | none => [.unsigned 0, .unsigned 0]
  | some text => extentFields text ++ startFields last text.start

/-- The start of the last visible point after an entry. -/
def Entry.nextStart (e : Entry) (last : Option LinePosition) : Option LinePosition :=
  (e.text.map LineSpan.start).or last

/-- The integers of an entry after the switch of its document. -/
def Entry.fields (e : Entry) (lastOffset : Nat) (lastStart : Option LinePosition) : List Field :=
  .unsigned (e.offset - lastOffset) :: textFields lastStart e.text

/-- The integers of entries, given the current document, the last offset and the start of the last
visible point. -/
def recordFields (current lastOffset : Nat) (lastStart : Option LinePosition) :
    List Entry → List Field
  | [] => []
  | e :: rest =>
    switchFields current e.row ++ (e.fields lastOffset lastStart ++
      recordFields e.row e.offset (e.nextStart lastStart) rest)

/-- The integers of a blob. -/
def blobFields (signature column initial : Nat) (entries : List Entry) : List Field :=
  headerFields signature column initial ++ recordFields initial 0 none entries

/-! ## Entries that can be written -/

/-- A row of the document table. -/
def IsRow (documents : List String) (row : Nat) : Prop := 1 ≤ row ∧ row ≤ documents.length

/-- A line or column of the source text needs 32 bits at most. -/
def IsWord (p : LinePosition) : Prop := p.line < wordLimit ∧ p.character < wordLimit

instance (documents : List String) (row : Nat) : Decidable (IsRow documents row) :=
  inferInstanceAs (Decidable (1 ≤ row ∧ row ≤ documents.length))

instance (p : LinePosition) : Decidable (IsWord p) :=
  inferInstanceAs (Decidable (p.line < wordLimit ∧ p.character < wordLimit))

/-- The entry is inside of the method and names a document; its text does not end where it starts. -/
structure Entry.Fits (ctx : Context) (e : Entry) : Prop where
  row : IsRow ctx.documents e.row
  offset : e.offset < ctx.codeSize
  text : ∀ text ∈ e.text, text.start < text.stop ∧ IsWord text.start ∧ IsWord text.stop

instance (ctx : Context) (e : Entry) : Decidable (e.Fits ctx) :=
  decidable_of_iff (IsRow ctx.documents e.row ∧ e.offset < ctx.codeSize ∧
      ∀ text ∈ e.text, text.start < text.stop ∧ IsWord text.start ∧ IsWord text.stop)
    ⟨fun ⟨hrow, hoffset, htext⟩ => ⟨hrow, hoffset, htext⟩,
      fun ⟨hrow, hoffset, htext⟩ => ⟨hrow, hoffset, htext⟩⟩

/-- The entries can be written into the blob of a method, with this row as the method's own (zero for
none) and this one as the initial document. -/
structure Writable (ctx : Context) (column initial : Nat) (entries : List Entry) : Prop where
  size : ctx.codeSize < wordLimit
  document : IsRow ctx.documents initial
  own : column = 0 ∨ column = initial
  first : ∀ e ∈ entries.head?, e.row = initial
  increasing : entries.Pairwise fun e f => e.offset < f.offset
  fits : ∀ e ∈ entries, e.Fits ctx

/-! ## Points -/

/-- The point of an entry, given where its range ends. -/
def Entry.point (documents : List String) (e : Entry) (endOffset : Nat) : SequencePoint :=
  match e.text with
  | none => .hidden e.offset endOffset documents[e.row - 1]?
  | some text =>
    { offset := e.offset, endOffset, start := text.start, stop := text.stop,
      document := documents[e.row - 1]?, isHidden := false }

/-- The points of entries: each range ends where the next one starts, and the last one with the
method body. -/
def entryPoints (ctx : Context) : List Entry → Stream
  | [] => []
  | [e] => [e.point ctx.documents ctx.codeSize]
  | e :: f :: rest => e.point ctx.documents f.offset :: entryPoints ctx (f :: rest)

end Retrace.Blob
