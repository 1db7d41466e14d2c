import Retrace.Json.Lexer
import Retrace.Json.Printer
import Mathlib.Data.List.Basic

/-!
# Strings and integers as they are written

The lexer reads a written string up to its closing quote and finds the text that was written
(`scanString_quoted`), whatever characters the text has: each of them is escaped on its own, and the
escape gives back this character (`scanString_escape`).

A number has no closing mark. It is read as long as the text looks like one, so it is read back only
in front of a text that does not go on with it (`EndsNumber`); a leading zero or a minus sign
decides on the way which digits belong to it (`scanNumber_spelled`).
-/

namespace Retrace.Json

/-! ## Strings -/

/-- A hexadecimal digit has the value that it was made for. -/
theorem hexValue?_hexDigit : ∀ n < 16, hexValue? (hexDigit n) = some n := by decide

/-- The four digits of an escaped control character give its number. -/
theorem hexValue4?_of_lt {n : Nat} (h : n < 0x20) :
    hexValue4? '0' '0' (hexDigit (n / 16)) (hexDigit (n % 16)) = some n := by
  have hzero : hexValue? '0' = some 0 := by decide
  rw [hexValue4?, hzero, hexValue?_hexDigit _ (by omega), hexValue?_hexDigit _ (by omega)]
  simp only [Option.some.injEq]
  omega

/-- An escaped character is read as this character, and the string goes on behind it. -/
theorem scanString_escape (c : Char) (rest : List Char) :
    scanString (escape c ++ rest) = (scanString rest).cons c := by
  unfold escape
  split
  case h_8 hquote hslash _ _ _ _ _ =>
    split
    · next hcontrol =>
      -- a control character is far below the surrogates
      have hhigh : isHighSurrogate c.toNat = false := by
        simp only [isHighSurrogate, Bool.and_eq_false_iff, decide_eq_false_iff_not]
        omega
      have hlow : isLowSurrogate c.toNat = false := by
        simp only [isLowSurrogate, Bool.and_eq_false_iff, decide_eq_false_iff_not]
        omega
      simp only [List.cons_append, List.nil_append]
      rw [scanString]
      simp [hexValue4?_of_lt hcontrol, hhigh, hlow]
    · next hplain =>
      rw [List.cons_append, List.nil_append, scanString, if_neg hplain]
      · exact hquote
      · exact fun _ _ _ _ _ h _ => hslash h
      · exact fun _ _ h _ => hslash h
  all_goals
    simp [scanString, escaped?]

/-- An escaped text is read back up to its closing quote, whatever follows. -/
theorem scanString_quoted (s rest : List Char) :
    scanString (s.flatMap escape ++ '\x22' :: rest) = some (some s, rest) := by
  induction s with
  | nil => simp [scanString]
  | cons c s ih =>
    rw [List.flatMap_cons, List.append_assoc, scanString_escape, ih]
    rfl

/-! ## The end of a number -/

/-- A text that does not go on with a number in front of it. -/
def EndsNumber (rest : List Char) : Prop :=
  ∀ c ∈ rest.head?, ¬ c.isDigit ∧ c ≠ '.' ∧ c ≠ 'e' ∧ c ≠ 'E'

namespace EndsNumber

variable {digits rest : List Char}

/-- Where the text ends, so does a number. -/
theorem nil : EndsNumber [] := by
  intro c hc
  cases hc

/-- A character that no number has ends it. -/
theorem cons {c : Char} (h : ¬ c.isDigit ∧ c ≠ '.' ∧ c ≠ 'e' ∧ c ≠ 'E') (rest : List Char) :
    EndsNumber (c :: rest) := by
  rintro _ ⟨⟩
  exact h

/-- Where a number ends, it has no fraction. -/
theorem scanFraction (h : EndsNumber rest) : scanFraction rest = some ([], rest) := by
  cases rest with
  | nil => rfl
  | cons c rest =>
    obtain ⟨-, hpoint, -⟩ := h c rfl
    rw [Json.scanFraction]
    rintro rest' ⟨⟩
    exact hpoint rfl

/-- Where a number ends, it has no exponent. -/
theorem scanExponent (h : EndsNumber rest) : scanExponent rest = some ([], rest) := by
  cases rest with
  | nil => rfl
  | cons c rest =>
    obtain ⟨-, -, hlower, hupper⟩ := h c rfl
    simp [Json.scanExponent, hlower, hupper]

/-- Digits are read up to where the number ends. -/
theorem scanDigits (h : EndsNumber rest) (hdigits : ∀ c ∈ digits, c.isDigit) (hne : digits ≠ []) :
    scanDigits (digits ++ rest) = some (digits, rest) := by
  have htake : rest.takeWhile Char.isDigit = [] := by
    cases rest with
    | nil => rfl
    | cons c rest => simp [(h c rfl).1]
  have hdrop : rest.dropWhile Char.isDigit = rest := by
    cases rest with
    | nil => rfl
    | cons c rest => simp [(h c rfl).1]
  rw [Json.scanDigits, List.takeWhile_append_of_pos hdigits, List.dropWhile_append_of_pos hdigits,
    htake, hdrop, List.append_nil]
  cases digits with
  | nil => exact absurd rfl hne
  | cons c digits => rfl

end EndsNumber

/-! ## Digits -/

/-- A number in decimal is made of digits. -/
theorem isDigit_of_mem_toDigits {n : Nat} {c : Char} (h : c ∈ Nat.toDigits 10 n) : c.isDigit :=
  Nat.isDigit_of_mem_toDigits (by decide) (by decide) h

/-- A positive number is not spelled with a leading zero. -/
theorem head?_toDigits {n : Nat} (h : 0 < n) : (Nat.toDigits 10 n).head? ≠ some '0' := by
  induction n using Nat.strongRecOn with
  | _ n ih =>
    by_cases hsmall : n < 10
    · rw [Nat.toDigits_of_lt_base hsmall]
      have hdigit : ∀ m < 10, 0 < m → [m.digitChar].head? ≠ some '0' := by decide
      exact hdigit n hsmall h
    · rw [Nat.toDigits_of_base_le (by decide) (by omega), List.head?_append_of_ne_nil _ (by simp)]
      exact ih (n / 10) (by omega) (by omega)

/-- A number has at least one digit, so that it begins with its own. -/
theorem head?_toDigits_append (n : Nat) (rest : List Char) :
    (Nat.toDigits 10 n ++ rest).head? = (Nat.toDigits 10 n).head? :=
  List.head?_append_of_ne_nil _ (by simp)

/-- Decimal digits have the value that they were made for. -/
theorem decimalValue_toDigits (n : Nat) : decimalValue (Nat.toDigits 10 n) = n := by
  have h := Nat.ofDigitChars_toDigits (b := 10) (n := n) (by decide) (by decide)
  simp only [Nat.ofDigitChars_eq_foldl, Nat.mul_comm 10] at h
  exact h

/-- The digits of a number are read as its whole part: a zero stands alone, and any other number
does not start with one. -/
theorem EndsNumber.scanWhole {rest : List Char} (h : EndsNumber rest) (n : Nat) :
    scanWhole (Nat.toDigits 10 n ++ rest) = some (Nat.toDigits 10 n, rest) := by
  rcases Nat.eq_zero_or_pos n with rfl | hn
  · rfl
  · rw [Json.scanWhole]
    · exact h.scanDigits (fun _ => isDigit_of_mem_toDigits) (by simp)
    · intro rest' hzero
      refine head?_toDigits hn ?_
      rw [← head?_toDigits_append n rest, hzero]
      rfl

/-! ## Integers -/

/-- The literal of an integer in decimal digits. -/
def NumberLiteral.ofInt (v : Int) : NumberLiteral := ⟨toString v, some v⟩

/-- The digits of a natural number are its literal. -/
theorem literal_natCast (n : Nat) : literal false (Nat.toDigits 10 n) [] = .ofInt n := by
  have hspelling : String.ofList (Nat.toDigits 10 n) = toString (n : Int) := rfl
  simp [literal, NumberLiteral.ofInt, decimalValue_toDigits, hspelling]

/-- A negative number is written as a minus sign and the digits of its amount. -/
theorem toList_toString_negSucc (n : Nat) :
    (toString (Int.negSucc n)).toList = '-' :: Nat.toDigits 10 (n + 1) := by
  change ("-" ++ Nat.repr (n + 1)).toList = _
  simp

/-- The digits of the amount of a negative number, with the sign, are its literal. -/
theorem literal_negSucc (n : Nat) :
    literal true (Nat.toDigits 10 (n + 1)) [] = .ofInt (Int.negSucc n) := by
  have hzero : Nat.toDigits 10 (n + 1) ≠ ['0'] := fun h =>
    head?_toDigits (Nat.succ_pos n) (congrArg List.head? h)
  have hspelling : String.ofList ('-' :: Nat.toDigits 10 (n + 1)) = toString (Int.negSucc n) := by
    rw [← toList_toString_negSucc, String.ofList_toList]
  have hvalue : -((n + 1 : Nat) : Int) = Int.negSucc n := rfl
  simp [literal, NumberLiteral.ofInt, hzero, decimalValue_toDigits, hspelling, ← hvalue]

/-- Decimal digits are read as a whole number, if the text does not go on with it. -/
theorem scanUnsigned_toDigits (negative : Bool) (n : Nat) {rest : List Char} (h : EndsNumber rest) :
    scanUnsigned negative (Nat.toDigits 10 n ++ rest) =
      some (literal negative (Nat.toDigits 10 n) [], rest) := by
  rw [scanUnsigned, h.scanWhole]
  simp only [h.scanFraction, h.scanExponent, List.append_nil]

/-- A written integer starts with a digit or a minus sign. -/
theorem exists_spelled_eq_cons (v : Int) :
    ∃ c digits, spelled (.integer v) = c :: digits ∧ (c.isDigit ∨ c = '-') := by
  cases v with
  | ofNat n =>
    have hspelled : spelled (.integer (Int.ofNat n)) = Nat.toDigits 10 n := Nat.toList_repr
    obtain ⟨c, digits, hdigits⟩ := List.exists_cons_of_ne_nil (l := Nat.toDigits 10 n) (by simp)
    refine ⟨c, digits, hspelled.trans hdigits, .inl (isDigit_of_mem_toDigits (n := n) ?_)⟩
    rw [hdigits]
    exact List.mem_cons_self
  | negSucc n => exact ⟨'-', _, toList_toString_negSucc n, .inr rfl⟩

/-- An integer in front of a text that does not go on with it is read as this integer. -/
theorem scanNumber_spelled (v : Int) {rest : List Char} (h : EndsNumber rest) :
    scanNumber (spelled (.integer v) ++ rest) = some (.ofInt v, rest) := by
  cases v with
  | ofNat n =>
    have hspelled : spelled (.integer (n : Int)) = Nat.toDigits 10 n := Nat.toList_repr
    rw [Int.ofNat_eq_natCast, hspelled, scanNumber, scanUnsigned_toDigits _ _ h, literal_natCast]
    intro rest' hminus
    have hdigit : '-' ∈ Nat.toDigits 10 n := by
      refine List.mem_of_mem_head? ?_
      rw [← head?_toDigits_append n rest, hminus]
      rfl
    exact absurd (isDigit_of_mem_toDigits hdigit) (by decide)
  | negSucc n =>
    rw [spelled, toList_toString_negSucc, List.cons_append, scanNumber, scanUnsigned_toDigits _ _ h,
      literal_negSucc]

end Retrace.Json
