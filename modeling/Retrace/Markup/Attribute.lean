import Retrace.Markup.Chars

/-!
# Attributes of a tag

The attributes of a tag are read from left to right up to the first mistake. `Attributes` keeps the
ones read and the mistake, so that a reader who finds what it looks for never sees what is wrong
behind it.
-/

namespace Retrace.Markup

/-- An attribute as it is written. -/
structure Attribute where
  key : List Char
  value : List Char
deriving DecidableEq

/-- What is wrong with an attribute. Positions are those of bytes in the tag. -/
inductive AttributeError
  /-- Something other than an equals sign follows the key. -/
  | noEquals (pos : Nat)
  | duplicate (pos earlier : Nat)
  /-- The tag ends behind the equals sign. -/
  | noValue (pos : Nat)
  | notQuoted (pos : Nat)
  | unclosed (pos : Nat) (quote : Char)
deriving DecidableEq

/-- The wording of an attribute error. -/
def AttributeError.message : AttributeError → String
  | .noEquals pos => s!"position {pos}: attribute key must be directly followed by `=` or space"
  | .duplicate pos earlier =>
    s!"position {pos}: duplicated attribute, previous declaration at position {earlier}"
  | .noValue pos => s!"position {pos}: `=` must be followed by an attribute value"
  | .notQuoted pos => s!"position {pos}: attribute value must be enclosed in `\"` or `'`"
  | .unclosed pos quote =>
    s!"position {pos}: missing closing quote `{quote}` in attribute value"

/-- The attributes read, and the mistake that ended the reading. -/
structure Attributes where
  read : List Attribute
  failure : Option AttributeError

/-- An attribute of a tag and what follows it. -/
structure AttributeStep where
  found : Attribute
  /-- Where the key starts. -/
  start : Nat
  /-- Where the rest starts. -/
  pos : Nat
  rest : List Char

/-- The attribute whose value starts at `pos`, at an opening quote. -/
def attributeValue (key : List Char) (start pos : Nat) (quote : Char) (body : List Char) :
    Except AttributeError AttributeStep :=
  let value := body.takeWhile (· != quote)
  match body.dropWhile (· != quote) with
  | [] => .error (.unclosed (pos + 1 + byteLength body) quote)
  | _ :: rest => .ok ⟨⟨key, value⟩, start, pos + byteLength value + 2, rest⟩

/-- The attribute whose key has been read; `pos` is where `rest` starts, behind the key. `earlier`
lists the keys before it with their positions. -/
def attributeAfterKey (earlier : List (List Char × Nat)) (key : List Char) (start pos : Nat)
    (rest : List Char) : Except AttributeError AttributeStep :=
  let pos := pos + byteLength (rest.takeWhile isSpace)
  match rest.dropWhile isSpace with
  | '=' :: rest =>
    match earlier.find? fun e => e.1 == key with
    | some (_, there) => .error (.duplicate start there)
    | none =>
      let pos := pos + 1 + byteLength (rest.takeWhile isSpace)
      match rest.dropWhile isSpace with
      | [] => .error (.noValue pos)
      | quote :: body =>
        if isQuote quote then attributeValue key start pos quote body else .error (.notQuoted pos)
  | _ => .error (.noEquals pos)

/-- The attribute that starts at `pos` with the character `first` of its key. -/
def attributeAt (earlier : List (List Char × Nat)) (pos : Nat) (first : Char) (rest : List Char) :
    Except AttributeError AttributeStep :=
  let key := first :: rest.takeWhile fun c => c != '=' && !isSpace c
  attributeAfterKey earlier key pos (pos + byteLength key)
    (rest.dropWhile fun c => c != '=' && !isSpace c)

/-! ## Reading an attribute takes characters -/

/-- A value takes at least its closing quote. -/
theorem rest_lt_of_attributeValue {key : List Char} {start pos : Nat} {quote : Char}
    {body : List Char} {s : AttributeStep} (h : attributeValue key start pos quote body = .ok s) :
    s.rest.length < body.length := by
  have := length_dropWhile_le (· != quote) body
  unfold attributeValue at h
  dsimp only at h
  split at h
  · cases h
  · next hd =>
    rw [hd, List.length_cons] at this
    cases h
    exact this

/-- Behind a key, the equals sign and a value take characters. -/
theorem rest_lt_of_attributeAfterKey {earlier : List (List Char × Nat)} {key : List Char}
    {start pos : Nat} {rest : List Char} {s : AttributeStep}
    (h : attributeAfterKey earlier key start pos rest = .ok s) : s.rest.length < rest.length := by
  have h₁ := length_dropWhile_le isSpace rest
  unfold attributeAfterKey at h
  dsimp only at h
  split at h
  · next rest₁ hd =>
    rw [hd, List.length_cons] at h₁
    split at h
    · cases h
    · have h₂ := length_dropWhile_le isSpace rest₁
      split at h
      · cases h
      · next hd₂ =>
        rw [hd₂, List.length_cons] at h₂
        split at h
        · have h₃ := rest_lt_of_attributeValue h
          omega
        · cases h
  · cases h

/-- Every attribute takes characters, so that a tag has finitely many. -/
theorem rest_lt_of_attributeAt {earlier : List (List Char × Nat)} {pos : Nat} {first : Char}
    {rest : List Char} {s : AttributeStep} (h : attributeAt earlier pos first rest = .ok s) :
    s.rest.length < rest.length :=
  Nat.lt_of_lt_of_le (rest_lt_of_attributeAfterKey h) (length_dropWhile_le _ _)

/-! ## Whole tags -/

/-- The attributes from position `pos` on. -/
def attributesFrom (earlier : List (List Char × Nat)) (pos : Nat) (cs : List Char) : Attributes :=
  match h : cs.dropWhile isSpace with
  | [] => ⟨[], none⟩
  | first :: rest =>
    match h' : attributeAt earlier (pos + byteLength (cs.takeWhile isSpace)) first rest with
    | .error e => ⟨[], some e⟩
    | .ok s =>
      have : s.rest.length < cs.length := by
        have h₁ := rest_lt_of_attributeAt h'
        have h₂ := length_dropWhile_le isSpace cs
        rw [h, List.length_cons] at h₂
        omega
      let others := attributesFrom (earlier ++ [(s.found.key, s.start)]) s.pos s.rest
      ⟨s.found :: others.read, others.failure⟩
termination_by cs.length

end Retrace.Markup
