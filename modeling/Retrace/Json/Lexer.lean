/-!
# Lexemes of JSON text

A text is split into lexemes; blanks between them are dropped. An escape in a string may name half
of a surrogate pair. Such a string is a lexeme, but it denotes no text.
-/

namespace Retrace.Json

/-- A number as it is spelled. -/
structure NumberLiteral where
  spelling : String
  /-- Its value, if it is spelled as an integer; minus zero is not. -/
  integer? : Option Int
deriving DecidableEq

/-- A lexeme. -/
inductive Lexeme
  | openBrace | closeBrace | openBracket | closeBracket | colon | comma
  | null
  | bool (value : Bool)
  | number (literal : NumberLiteral)
  /-- A string with the text it denotes, if it denotes one. -/
  | string (value : Option String)
deriving DecidableEq

/-- The characters that may stand between lexemes. -/
def isSpace (c : Char) : Bool := c == ' ' || c == '\n' || c == '\t' || c == '\r'

/-! ## Strings -/

/-- The value of a hexadecimal digit. -/
def hexValue? (c : Char) : Option Nat :=
  if '0' ≤ c ∧ c ≤ '9' then some (c.toNat - 48)
  else if 'a' ≤ c ∧ c ≤ 'f' then some (c.toNat - 87)
  else if 'A' ≤ c ∧ c ≤ 'F' then some (c.toNat - 55)
  else none

/-- The value of four hexadecimal digits. -/
def hexValue4? (a b c d : Char) : Option Nat :=
  match hexValue? a, hexValue? b, hexValue? c, hexValue? d with
  | some a, some b, some c, some d => some (((a * 16 + b) * 16 + c) * 16 + d)
  | _, _, _, _ => none

/-- Whether a 16-bit unit is the first half of a surrogate pair. -/
def isHighSurrogate (n : Nat) : Bool := 0xD800 ≤ n && n < 0xDC00

/-- Whether a 16-bit unit is the second half of a surrogate pair. -/
def isLowSurrogate (n : Nat) : Bool := 0xDC00 ≤ n && n < 0xE000

/-- The character that a surrogate pair stands for. -/
def ofSurrogates (high low : Nat) : Char :=
  Char.ofNat (0x10000 + (high - 0xD800) * 0x400 + (low - 0xDC00))

/-- The character of a one-letter escape. -/
def escaped? : Char → Option Char
  | '\x22' => some '\x22'
  | '\\' => some '\\'
  | '/' => some '/'
  | 'b' => some '\x08'
  | 'f' => some '\x0c'
  | 'n' => some '\n'
  | 'r' => some '\r'
  | 't' => some '\t'
  | _ => none

/-- The text of a string up to its closing quote, and what follows. -/
abbrev ScannedString := Option (Option (List Char) × List Char)

/-- Puts a character in front of the text. -/
def ScannedString.cons (c : Char) : ScannedString → ScannedString :=
  Option.map fun (text, rest) => (text.map (c :: ·), rest)

/-- The string denotes no text. -/
def ScannedString.undefined : ScannedString → ScannedString :=
  Option.map fun (_, rest) => (none, rest)

/-- The second half of a surrogate pair at the start of a text, and what follows. -/
def lowSurrogate? : List Char → Option (Nat × List Char)
  | '\\' :: 'u' :: a :: b :: c :: d :: rest =>
    match hexValue4? a b c d with
    | some n => if isLowSurrogate n then some (n, rest) else none
    | none => none
  | _ => none

/-- The second half of a surrogate pair takes characters. -/
theorem rest_lt_of_lowSurrogate {cs rest : List Char} {n : Nat}
    (h : lowSurrogate? cs = some (n, rest)) : rest.length < cs.length := by
  unfold lowSurrogate? at h
  split at h
  · split at h
    · split at h
      · cases h
        simp only [List.length_cons]
        omega
      · cases h
    · cases h
  · cases h

/-- Scans a string behind its opening quote. -/
def scanString (cs : List Char) : ScannedString :=
  match cs with
  | [] => none
  | '\x22' :: rest => some (some [], rest)
  | '\\' :: 'u' :: a :: b :: c :: d :: rest =>
    match hexValue4? a b c d with
    | none => none
    | some n =>
      if isHighSurrogate n then
        match h : lowSurrogate? rest with
        | some (low, rest') =>
          have := rest_lt_of_lowSurrogate h
          (scanString rest').cons (ofSurrogates n low)
        | none => (scanString rest).undefined
      else if isLowSurrogate n then (scanString rest).undefined
      else (scanString rest).cons (Char.ofNat n)
  | '\\' :: c :: rest =>
    match escaped? c with
    | some c => (scanString rest).cons c
    | none => none
  | c :: rest => if c.toNat < 0x20 then none else (scanString rest).cons c
termination_by cs.length

/-- A character in front of a string leaves the rest behind it as it is. -/
theorem ScannedString.eq_some_of_cons {c : Char} {s : ScannedString} {text : Option (List Char)}
    {rest : List Char} (h : s.cons c = some (text, rest)) : ∃ text', s = some (text', rest) := by
  obtain ⟨⟨text', rest'⟩, hs, h⟩ := Option.map_eq_some_iff.1 h
  cases h
  exact ⟨text', hs⟩

/-- A string that has lost its text has the same rest behind it. -/
theorem ScannedString.eq_some_of_undefined {s : ScannedString} {text : Option (List Char)}
    {rest : List Char} (h : s.undefined = some (text, rest)) : ∃ text', s = some (text', rest) := by
  obtain ⟨⟨text', rest'⟩, hs, h⟩ := Option.map_eq_some_iff.1 h
  cases h
  exact ⟨text', hs⟩

/-- A string takes at least its closing quote. -/
theorem rest_lt_of_scanString {cs rest : List Char} {text : Option (List Char)}
    (h : scanString cs = some (text, rest)) : rest.length < cs.length := by
  fun_induction scanString cs generalizing text with
  | case1 => cases h
  | case2 => cases h; simp
  | case3 => cases h
  | case4 a b c d rest₀ n _ _ low rest' hl hlt ih =>
    obtain ⟨_, h⟩ := ScannedString.eq_some_of_cons h
    have := ih h
    simp only [List.length_cons] at hlt ⊢
    omega
  | case5 a b c d rest₀ n _ _ _ ih =>
    obtain ⟨_, h⟩ := ScannedString.eq_some_of_undefined h
    have := ih h
    simp only [List.length_cons]
    omega
  | case6 a b c d rest₀ n _ _ _ ih =>
    obtain ⟨_, h⟩ := ScannedString.eq_some_of_undefined h
    have := ih h
    simp only [List.length_cons]
    omega
  | case7 a b c d rest₀ n _ _ _ ih =>
    obtain ⟨_, h⟩ := ScannedString.eq_some_of_cons h
    have := ih h
    simp only [List.length_cons]
    omega
  | case8 c rest₀ _ c' _ ih =>
    obtain ⟨_, h⟩ := ScannedString.eq_some_of_cons h
    have := ih h
    simp only [List.length_cons]
    omega
  | case9 => cases h
  | case10 => cases h
  | case11 c rest₀ _ _ _ _ ih =>
    obtain ⟨_, h⟩ := ScannedString.eq_some_of_cons h
    have := ih h
    simp only [List.length_cons]
    omega

/-! ## Numbers -/

/-- The digits that a text starts with, and what follows. There has to be one. -/
def scanDigits (cs : List Char) : Option (List Char × List Char) :=
  match cs.takeWhile Char.isDigit with
  | [] => none
  | digits => some (digits, cs.dropWhile Char.isDigit)

/-- The digits before the point: a zero alone, or digits that start with another one. -/
def scanWhole : List Char → Option (List Char × List Char)
  | '0' :: rest => some (['0'], rest)
  | cs => scanDigits cs

/-- The point and the digits behind it, if there is a point. -/
def scanFraction : List Char → Option (List Char × List Char)
  | '.' :: rest => (scanDigits rest).map fun (digits, rest) => ('.' :: digits, rest)
  | cs => some ([], cs)

/-- The exponent, if there is one. -/
def scanExponent : List Char → Option (List Char × List Char)
  | [] => some ([], [])
  | e :: rest =>
    if e = 'e' ∨ e = 'E' then
      match rest with
      | '+' :: rest => (scanDigits rest).map fun (digits, rest) => (e :: '+' :: digits, rest)
      | '-' :: rest => (scanDigits rest).map fun (digits, rest) => (e :: '-' :: digits, rest)
      | rest => (scanDigits rest).map fun (digits, rest) => (e :: digits, rest)
    else some ([], e :: rest)

/-- The number that decimal digits spell. -/
def decimalValue (digits : List Char) : Nat :=
  digits.foldl (fun n c => n * 10 + (c.toNat - 48)) 0

/-- The literal of the parts of a number. -/
def literal (negative : Bool) (whole tail : List Char) : NumberLiteral where
  spelling := String.ofList ((if negative then ['-'] else []) ++ whole ++ tail)
  integer? :=
    if tail.isEmpty then
      if negative then
        if whole = ['0'] then none else some (-(decimalValue whole : Int))
      else some (decimalValue whole)
    else none

/-- The number behind the sign. -/
def scanUnsigned (negative : Bool) (cs : List Char) : Option (NumberLiteral × List Char) :=
  match scanWhole cs with
  | none => none
  | some (whole, cs) =>
    match scanFraction cs with
    | none => none
    | some (fraction, cs) =>
      match scanExponent cs with
      | none => none
      | some (exponent, cs) => some (literal negative whole (fraction ++ exponent), cs)

/-- A number. -/
def scanNumber : List Char → Option (NumberLiteral × List Char)
  | '-' :: rest => scanUnsigned true rest
  | cs => scanUnsigned false cs

/-- A run of digits takes at least one. -/
theorem rest_lt_of_scanDigits {cs digits rest : List Char}
    (h : scanDigits cs = some (digits, rest)) : rest.length < cs.length := by
  unfold scanDigits at h
  split at h
  · cases h
  · next hne =>
    cases h
    have hl := congrArg List.length (List.takeWhile_append_dropWhile (p := Char.isDigit) (l := cs))
    rw [List.length_append] at hl
    have : 0 < (cs.takeWhile Char.isDigit).length := List.length_pos_iff.2 hne
    omega

/-- The whole part of a number takes at least one digit. -/
theorem rest_lt_of_scanWhole {cs digits rest : List Char}
    (h : scanWhole cs = some (digits, rest)) : rest.length < cs.length := by
  unfold scanWhole at h
  split at h
  · cases h
    simp
  · exact rest_lt_of_scanDigits h

/-- The fraction of a number may take nothing, but gives nothing back. -/
theorem rest_le_of_scanFraction {cs digits rest : List Char}
    (h : scanFraction cs = some (digits, rest)) : rest.length ≤ cs.length := by
  unfold scanFraction at h
  split at h
  · obtain ⟨⟨digits', rest'⟩, h', h⟩ := Option.map_eq_some_iff.1 h
    cases h
    have := rest_lt_of_scanDigits h'
    simp only [List.length_cons]
    omega
  · cases h
    exact Nat.le_refl _

/-- The exponent of a number may take nothing, but gives nothing back. -/
theorem rest_le_of_scanExponent {cs digits rest : List Char}
    (h : scanExponent cs = some (digits, rest)) : rest.length ≤ cs.length := by
  unfold scanExponent at h
  split at h
  · cases h
    exact Nat.le_refl _
  · split at h
    · split at h
      all_goals
        obtain ⟨⟨digits', rest'⟩, h', h⟩ := Option.map_eq_some_iff.1 h
        cases h
        have := rest_lt_of_scanDigits h'
        simp only [List.length_cons]
        omega
    · cases h
      exact Nat.le_refl _

/-- A number without its sign takes at least one digit. -/
theorem rest_lt_of_scanUnsigned {negative : Bool} {cs rest : List Char} {l : NumberLiteral}
    (h : scanUnsigned negative cs = some (l, rest)) : rest.length < cs.length := by
  unfold scanUnsigned at h
  split at h
  · cases h
  · next h₁ =>
    split at h
    · cases h
    · next h₂ =>
      split at h
      · cases h
      · next h₃ =>
        cases h
        have := rest_lt_of_scanWhole h₁
        have := rest_le_of_scanFraction h₂
        have := rest_le_of_scanExponent h₃
        omega

/-- A number takes at least one digit. -/
theorem rest_lt_of_scanNumber {cs rest : List Char} {l : NumberLiteral}
    (h : scanNumber cs = some (l, rest)) : rest.length < cs.length := by
  unfold scanNumber at h
  split at h
  · have := rest_lt_of_scanUnsigned h
    simp only [List.length_cons]
    omega
  · exact rest_lt_of_scanUnsigned h

/-! ## Whole texts -/

/-- The lexeme at the start of a text that starts with no blank, and what follows. -/
def scan (cs : List Char) : Option (Lexeme × List Char) :=
  match cs with
  | '\x7b' :: rest => some (.openBrace, rest)
  | '\x7d' :: rest => some (.closeBrace, rest)
  | '[' :: rest => some (.openBracket, rest)
  | ']' :: rest => some (.closeBracket, rest)
  | ':' :: rest => some (.colon, rest)
  | ',' :: rest => some (.comma, rest)
  | '\x22' :: rest =>
    (scanString rest).map fun (text, rest) => (.string (text.map String.ofList), rest)
  | 'n' :: 'u' :: 'l' :: 'l' :: rest => some (.null, rest)
  | 't' :: 'r' :: 'u' :: 'e' :: rest => some (.bool true, rest)
  | 'f' :: 'a' :: 'l' :: 's' :: 'e' :: rest => some (.bool false, rest)
  | cs => (scanNumber cs).map fun (l, rest) => (.number l, rest)

/-- Every lexeme takes characters, so that a text has finitely many. -/
theorem rest_lt_of_scan {cs rest : List Char} {t : Lexeme} (h : scan cs = some (t, rest)) :
    rest.length < cs.length := by
  unfold scan at h
  split at h
  case h_7 =>
    obtain ⟨⟨text, rest'⟩, h', h⟩ := Option.map_eq_some_iff.1 h
    cases h
    have := rest_lt_of_scanString h'
    simp only [List.length_cons]
    omega
  case h_11 =>
    obtain ⟨⟨l, rest'⟩, h', h⟩ := Option.map_eq_some_iff.1 h
    cases h
    exact rest_lt_of_scanNumber h'
  all_goals
    cases h
    simp only [List.length_cons]
    omega

/-- The lexemes of a text, or nothing if it cannot be split. -/
def lexemes (cs : List Char) : Option (List Lexeme) :=
  match cs with
  | [] => some []
  | c :: rest =>
    if isSpace c then lexemes rest
    else
      match h : scan (c :: rest) with
      | none => none
      | some (t, rest') =>
        have : rest'.length < rest.length + 1 := rest_lt_of_scan h
        (lexemes rest').map (t :: ·)
termination_by cs.length

end Retrace.Json
