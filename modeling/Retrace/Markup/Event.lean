import Retrace.Markup.Attribute

/-!
# Markup as events

A markup document is read into the sequence of its tags, up to the first mistake. Text between tags,
comments, character data, processing instructions and document types are stepped over. Closing tags
have to match the tags they close; tags that are still open at the end, and several top-level
elements, are accepted.
-/

namespace Retrace.Markup

/-- What stands between the angle brackets of an opening tag, without the slash of an empty one. -/
structure Tag where
  content : List Char
deriving DecidableEq

namespace Tag

/-- The name that the tag starts with. -/
def name (t : Tag) : List Char := t.content.takeWhile fun c => !isSpace c

/-- The name without its namespace. -/
def localName (t : Tag) : List Char := Markup.localName t.name

/-- The attributes behind the name. -/
def attributes (t : Tag) : Attributes :=
  attributesFrom [] (byteLength t.name) (t.content.dropWhile fun c => !isSpace c)

end Tag

/-- A tag of a document. -/
inductive Event
  /-- A tag that opens an element. -/
  | start (tag : Tag)
  /-- A tag that is an element of its own. -/
  | empty (tag : Tag)
  /-- A tag that closes the innermost open element. -/
  | stop (name : List Char)
deriving DecidableEq

/-- What is wrong with a document. -/
inductive EventError
  | tagNotClosed
  | unknownMarkup
  | commentNotClosed
  | characterDataNotClosed
  | documentTypeNotClosed
  | documentTypeWithoutName
  | instructionNotClosed
  | mismatch (expected found : String)
  | nothingToClose (found : String)
deriving DecidableEq

/-- The wording of a document error. -/
def EventError.message : EventError → String
  | .tagNotClosed => "syntax error: tag not closed: `>` not found before end of input"
  | .unknownMarkup => "syntax error: unknown or missed symbol in markup"
  | .commentNotClosed => "syntax error: comment not closed: `-->` not found before end of input"
  | .characterDataNotClosed => "syntax error: CDATA not closed: `]]>` not found before end of input"
  | .documentTypeNotClosed => "syntax error: DOCTYPE not closed: `>` not found before end of input"
  | .documentTypeWithoutName =>
    "ill-formed document: `<!DOCTYPE>` declaration does not contain a name of a document type"
  | .instructionNotClosed =>
    "syntax error: processing instruction or xml declaration not closed: " ++
      "`?>` not found before end of input"
  | .mismatch expected found =>
    s!"ill-formed document: expected `</{expected}>`, but `</{found}>` was found"
  | .nothingToClose found =>
    s!"ill-formed document: close tag `</{found}>` does not match any open tag"

/-- The events read, and the mistake that ended the reading. -/
structure Reading where
  events : List Event
  failure : Option EventError

/-! ## Where markup ends -/

/-- Puts a character in front of the first part of a split. -/
def consFront (c : Char) : Option (List Char × List Char) → Option (List Char × List Char) :=
  Option.map fun (front, back) => (c :: front, back)

/-- Splits at the first `>` outside of quotes; `quote` is the quote that is open, if any. -/
def splitTag (quote : Option Char) : List Char → Option (List Char × List Char)
  | [] => none
  | c :: rest =>
    match quote with
    | some q => consFront c (splitTag (if c = q then none else some q) rest)
    | none =>
      if c = '>' then some ([], rest)
      else consFront c (splitTag (if isQuote c then some c else none) rest)

/-- Splits at the first `>` that `ends` accepts, given the characters before it, latest first. -/
def splitAfter (ends : List Char → Bool) (seen : List Char) :
    List Char → Option (List Char × List Char)
  | [] => none
  | c :: rest =>
    if c = '>' && ends seen then some (seen.reverse, rest) else splitAfter ends (c :: seen) rest

/-- Splits at the first `>` that closes no `<` before it; `depth` of them are open. -/
def splitBalanced (depth : Nat) : List Char → Option (List Char × List Char)
  | [] => none
  | c :: rest =>
    if c = '>' then
      match depth with
      | 0 => some ([], rest)
      | depth + 1 => consFront c (splitBalanced depth rest)
    else
      consFront c (splitBalanced (if c = '<' then depth + 1 else depth) rest)

/-- A character in front of the first part leaves the second one as it is. -/
theorem eq_some_of_consFront {c : Char} {o : Option (List Char × List Char)}
    {front back : List Char} (h : consFront c o = some (front, back)) :
    ∃ front', o = some (front', back) := by
  obtain ⟨⟨front', back'⟩, ho, h⟩ := Option.map_eq_some_iff.1 h
  cases h
  exact ⟨front', ho⟩

/-- The bracket that ends a tag is in neither part. -/
theorem rest_lt_of_splitTag {quote : Option Char} {cs front back : List Char}
    (h : splitTag quote cs = some (front, back)) : back.length < cs.length := by
  induction cs generalizing quote front with
  | nil => cases h
  | cons c rest ih =>
    have step : ∀ {q front}, consFront c (splitTag q rest) = some (front, back) →
        back.length < (c :: rest).length := by
      intro q front h
      obtain ⟨_, h⟩ := eq_some_of_consFront h
      exact Nat.lt_succ_of_lt (ih h)
    unfold splitTag at h
    split at h
    · exact step h
    · split at h
      · cases h
        simp
      · exact step h

/-- The bracket that ends the markup is in neither part. -/
theorem rest_lt_of_splitAfter {ends : List Char → Bool} {seen cs front back : List Char}
    (h : splitAfter ends seen cs = some (front, back)) : back.length < cs.length := by
  induction cs generalizing seen with
  | nil => cases h
  | cons c rest ih =>
    unfold splitAfter at h
    split at h
    · cases h
      simp
    · have := ih h
      simp only [List.length_cons]
      omega

/-- The bracket that closes the markup is in neither part. -/
theorem rest_lt_of_splitBalanced {depth : Nat} {cs front back : List Char}
    (h : splitBalanced depth cs = some (front, back)) : back.length < cs.length := by
  induction cs generalizing depth front with
  | nil => cases h
  | cons c rest ih =>
    have step : ∀ {d front}, consFront c (splitBalanced d rest) = some (front, back) →
        back.length < (c :: rest).length := by
      intro d front h
      obtain ⟨_, h⟩ := eq_some_of_consFront h
      exact Nat.lt_succ_of_lt (ih h)
    unfold splitBalanced at h
    split at h
    · split at h
      · cases h
        simp
      · exact step h
    · exact step h

/-! ## One piece of markup -/

/-- A piece of markup and what follows it. -/
structure Step where
  /-- The tag, if the piece is one. -/
  event : Option Event
  /-- The names of the open elements behind it, innermost first. -/
  opened : List (List Char)
  rest : List Char

/-- Whether a text starts with a word, in any case of its ASCII letters. -/
def startsWithWord (word : String) (cs : List Char) : Bool :=
  word.toList.map Char.toLower == (cs.take word.length).map Char.toLower

section Steps

variable {opened : List (List Char)} {cs : List Char} {s : Step}

/-- The comment at `cs`, which starts with the exclamation mark. -/
def comment (opened : List (List Char)) (cs : List Char) : Except EventError Step :=
  match splitAfter (fun seen => 5 ≤ seen.length && ['-', '-'].isPrefixOf seen) [] cs with
  | some (content, rest) =>
    if "!--".toList.isPrefixOf content then .ok ⟨none, opened, rest⟩ else .error .commentNotClosed
  | none => .error .commentNotClosed

/-- Behind a comment there is less left to read. -/
theorem rest_lt_of_comment (h : comment opened cs = .ok s) : s.rest.length < cs.length := by
  unfold comment at h
  split at h
  · next hs =>
    split at h
    · cases h
      exact rest_lt_of_splitAfter hs
    · cases h
  · cases h

/-- The character data at `cs`, which starts with the exclamation mark. -/
def characterData (opened : List (List Char)) (cs : List Char) : Except EventError Step :=
  match splitAfter (fun seen => [']', ']'].isPrefixOf seen) [] cs with
  | some (content, rest) =>
    if "![CDATA[".toList.isPrefixOf content then .ok ⟨none, opened, rest⟩
    else .error .characterDataNotClosed
  | none => .error .characterDataNotClosed

/-- Behind character data there is less left to read. -/
theorem rest_lt_of_characterData (h : characterData opened cs = .ok s) :
    s.rest.length < cs.length := by
  unfold characterData at h
  split at h
  · next hs =>
    split at h
    · cases h
      exact rest_lt_of_splitAfter hs
    · cases h
  · cases h

/-- The document type at `cs`, which starts with the exclamation mark. -/
def documentType (opened : List (List Char)) (cs : List Char) : Except EventError Step :=
  match splitBalanced 0 cs with
  | some (content, rest) =>
    if startsWithWord "!doctype" content then
      if (content.drop 8).all isSpace then .error .documentTypeWithoutName
      else .ok ⟨none, opened, rest⟩
    else .error .documentTypeNotClosed
  | none => .error .documentTypeNotClosed

/-- Behind a document type there is less left to read. -/
theorem rest_lt_of_documentType (h : documentType opened cs = .ok s) :
    s.rest.length < cs.length := by
  unfold documentType at h
  split at h
  · next hs =>
    split at h
    · split at h
      · cases h
      · cases h
        exact rest_lt_of_splitBalanced hs
    · cases h
  · cases h

/-- The instruction at `cs`, which starts with the question mark. -/
def processingInstruction (opened : List (List Char)) (cs : List Char) : Except EventError Step :=
  match splitAfter (fun seen => ['?'].isPrefixOf seen) [] cs with
  | some (content, rest) =>
    if content.length ≤ 1 then .error .instructionNotClosed else .ok ⟨none, opened, rest⟩
  | none => .error .instructionNotClosed

/-- Behind an instruction there is less left to read. -/
theorem rest_lt_of_processingInstruction (h : processingInstruction opened cs = .ok s) :
    s.rest.length < cs.length := by
  unfold processingInstruction at h
  split at h
  · next hs =>
    split at h
    · cases h
    · cases h
      exact rest_lt_of_splitAfter hs
  · cases h

/-- The name in a closing tag: white space at its end is dropped, unless there is nothing else. -/
def closingName (cs : List Char) : List Char :=
  let trimmed := (cs.reverse.dropWhile isSpace).reverse
  if trimmed.isEmpty then cs else trimmed

/-- The closing tag at `cs`, which starts with the slash. -/
def closingTag (opened : List (List Char)) (cs : List Char) : Except EventError Step :=
  match splitTag none cs with
  | none => .error .tagNotClosed
  | some (content, rest) =>
    let name := closingName (content.drop 1)
    match opened with
    | [] => .error (.nothingToClose (String.ofList name))
    | innermost :: opened =>
      if name = innermost then .ok ⟨some (.stop name), opened, rest⟩
      else .error (.mismatch (String.ofList innermost) (String.ofList name))

/-- Behind a closing tag there is less left to read. -/
theorem rest_lt_of_closingTag (h : closingTag opened cs = .ok s) : s.rest.length < cs.length := by
  unfold closingTag at h
  split at h
  · cases h
  · next hs =>
    dsimp only at h
    split at h
    · cases h
    · split at h
      · cases h
        exact rest_lt_of_splitTag hs
      · cases h

/-- The opening tag at `cs`; a slash at its end makes it an element of its own. -/
def openingTag (opened : List (List Char)) (cs : List Char) : Except EventError Step :=
  match splitTag none cs with
  | none => .error .tagNotClosed
  | some (content, rest) =>
    if content.getLast? = some '/' then .ok ⟨some (.empty ⟨content.dropLast⟩), opened, rest⟩
    else .ok ⟨some (.start ⟨content⟩), Tag.name ⟨content⟩ :: opened, rest⟩

/-- Behind an opening tag there is less left to read. -/
theorem rest_lt_of_openingTag (h : openingTag opened cs = .ok s) : s.rest.length < cs.length := by
  unfold openingTag at h
  split at h
  · cases h
  · next hs =>
    split at h
    · cases h
      exact rest_lt_of_splitTag hs
    · cases h
      exact rest_lt_of_splitTag hs

/-- The markup behind an opening angle bracket. -/
def step (opened : List (List Char)) (cs : List Char) : Except EventError Step :=
  match cs with
  | [] => .error .tagNotClosed
  | '!' :: rest =>
    match rest with
    | '-' :: _ => comment opened cs
    | '[' :: _ => characterData opened cs
    | 'D' :: _ => documentType opened cs
    | 'd' :: _ => documentType opened cs
    | _ => .error .unknownMarkup
  | '?' :: _ => processingInstruction opened cs
  | '/' :: _ => closingTag opened cs
  | _ => openingTag opened cs

/-- Behind each piece of markup there is less left to read, so that reading a document ends. -/
theorem rest_lt_of_step (h : step opened cs = .ok s) : s.rest.length < cs.length := by
  unfold step at h
  split at h
  · cases h
  · split at h
    · exact rest_lt_of_comment h
    · exact rest_lt_of_characterData h
    · exact rest_lt_of_documentType h
    · exact rest_lt_of_documentType h
    · cases h
  · exact rest_lt_of_processingInstruction h
  · exact rest_lt_of_closingTag h
  · exact rest_lt_of_openingTag h

end Steps

/-! ## Whole documents -/

/-- The events from `cs` on, with the given elements open. -/
def readFrom (opened : List (List Char)) (cs : List Char) : Reading :=
  match cs with
  | [] => ⟨[], none⟩
  | c :: rest =>
    if c = '<' then
      match h : step opened rest with
      | .error e => ⟨[], some e⟩
      | .ok s =>
        have : s.rest.length < rest.length + 1 := Nat.lt_succ_of_lt (rest_lt_of_step h)
        let others := readFrom s.opened s.rest
        ⟨s.event.toList ++ others.events, others.failure⟩
    else
      readFrom opened rest
termination_by cs.length

/-- The mark that may stand at the start of a text to tell its encoding. -/
def byteOrderMark : Char := Char.ofNat 0xFEFF

/-- The events of a document. -/
def read (text : String) : Reading :=
  match text.toList with
  | [] => ⟨[], none⟩
  | c :: rest => readFrom [] (if c = byteOrderMark then rest else c :: rest)

end Retrace.Markup
