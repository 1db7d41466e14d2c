import Retrace.Bytes.Word

/-!
# Places in source text

Positions, spans, the place a diagnostic is reported at, and the place it is traced back to.
Positions compare by line first and by character second. Lines are counted in words, so that the
last line has no next one: `nextLine` goes on with line zero, and `nextLine?` has no result.
-/

namespace Retrace

/-- A line and a character in it. -/
structure LinePosition where
  line : Nat
  character : Nat
deriving DecidableEq

namespace LinePosition

instance : LE LinePosition :=
  ⟨fun p q => p.line < q.line ∨ p.line = q.line ∧ p.character ≤ q.character⟩

instance : LT LinePosition :=
  ⟨fun p q => p.line < q.line ∨ p.line = q.line ∧ p.character < q.character⟩

/-- Positions are ordered by line, and in a line by character. -/
theorem le_iff {p q : LinePosition} :
    p ≤ q ↔ p.line < q.line ∨ p.line = q.line ∧ p.character ≤ q.character := Iff.rfl

/-- A position is in front of another one by line, or by character in the same line. -/
theorem lt_iff {p q : LinePosition} :
    p < q ↔ p.line < q.line ∨ p.line = q.line ∧ p.character < q.character := Iff.rfl

instance (p q : LinePosition) : Decidable (p ≤ q) := decidable_of_iff' _ le_iff

instance (p q : LinePosition) : Decidable (p < q) := decidable_of_iff' _ lt_iff

theorem le_refl (p : LinePosition) : p ≤ p := Or.inr ⟨rfl, Nat.le_refl _⟩

/-- Any two positions can be compared. -/
theorem le_total (p q : LinePosition) : p ≤ q ∨ q ≤ p := by
  rw [le_iff, le_iff]
  omega

/-- Only a position itself is both behind and in front of it. -/
theorem le_antisymm {p q : LinePosition} (hpq : p ≤ q) (hqp : q ≤ p) : p = q := by
  rw [le_iff] at hpq hqp
  have hline : p.line = q.line := by omega
  have hcharacter : p.character = q.character := by omega
  cases p
  cases q
  cases hline
  cases hcharacter
  rfl

/-- The order of positions is transitive. -/
theorem le_trans {p q r : LinePosition} (hpq : p ≤ q) (hqr : q ≤ r) : p ≤ r := by
  rw [le_iff] at hpq hqr ⊢
  omega

/-- A later position is on no earlier line. -/
theorem line_le {p q : LinePosition} (h : p ≤ q) : p.line ≤ q.line := by
  rw [le_iff] at h
  omega

/-- A position is not in front of another one if and only if it is at it or behind it. -/
theorem not_lt {p q : LinePosition} : ¬ p < q ↔ q ≤ p := by
  rw [lt_iff, le_iff]
  omega

/-- The position on the next line, in the same column. Behind the last line comes line zero. -/
def nextLine (p : LinePosition) : LinePosition := { p with line := (p.line + 1) % wordLimit }

/-- The position on the next line, in the same column, if there is such a line. -/
def nextLine? (p : LinePosition) : Option LinePosition :=
  if p.line + 1 < wordLimit then some { p with line := p.line + 1 } else none

/-- Line and character, separated by a colon. -/
def render (p : LinePosition) : String := s!"{p.line}:{p.character}"

end LinePosition

/-- A stretch of source text. -/
structure LineSpan where
  start : LinePosition
  stop : LinePosition
deriving DecidableEq

namespace LineSpan

/-- The same stretch with lines counted from one instead of zero. -/
def fromOne (s : LineSpan) : LineSpan := ⟨s.start.nextLine, s.stop.nextLine⟩

/-- The same stretch with lines counted from one, if words can count them. -/
def fromOne? (s : LineSpan) : Option LineSpan := do
  return ⟨← s.start.nextLine?, ← s.stop.nextLine?⟩

/-- Some line of the stretch is the last one that a word counts, or behind it. -/
def Overflows (s : LineSpan) : Prop :=
  wordLimit ≤ s.start.line + 1 ∨ wordLimit ≤ s.stop.line + 1

instance (s : LineSpan) : Decidable s.Overflows :=
  inferInstanceAs (Decidable (wordLimit ≤ s.start.line + 1 ∨ wordLimit ≤ s.stop.line + 1))

/-- A span counts from one without wrapping if both of its lines have a next one. -/
theorem not_overflows_iff {s : LineSpan} :
    ¬ s.Overflows ↔ s.start.line + 1 < wordLimit ∧ s.stop.line + 1 < wordLimit := by
  rw [Overflows, not_or, Nat.not_le, Nat.not_le]

/-- In front of the last line, counting from one adds one to each line. -/
theorem fromOne_of_fits {s : LineSpan} (h : ¬ s.Overflows) : s.fromOne =
    ⟨⟨s.start.line + 1, s.start.character⟩, ⟨s.stop.line + 1, s.stop.character⟩⟩ := by
  obtain ⟨hstart, hstop⟩ := not_overflows_iff.1 h
  rw [fromOne, LinePosition.nextLine, LinePosition.nextLine, Nat.mod_eq_of_lt hstart,
    Nat.mod_eq_of_lt hstop]

/-- The two ways to count from one differ at the last line only. -/
theorem fromOne?_eq (s : LineSpan) : s.fromOne? = if s.Overflows then none else some s.fromOne := by
  by_cases h : s.Overflows
  · rw [if_pos h, fromOne?, LinePosition.nextLine?, LinePosition.nextLine?]
    rcases h with hstart | hstop
    · rw [if_neg (Nat.not_lt.2 hstart)]
      rfl
    · rw [if_neg (Nat.not_lt.2 hstop)]
      split
      · rfl
      · rfl
  · obtain ⟨hstart, hstop⟩ := not_overflows_iff.1 h
    rw [if_neg h, fromOne_of_fits h, fromOne?, LinePosition.nextLine?, if_pos hstart,
      LinePosition.nextLine?, if_pos hstop]
    rfl

/-- Both ends, separated by a dash. -/
def render (s : LineSpan) : String := s!"{s.start.render}-{s.stop.render}"

end LineSpan

/-- Where a diagnostic is reported. -/
inductive Location
  /-- Not in source text. -/
  | none
  /-- In the reconstructed unit of that name; lines count from zero. -/
  | source (unit : String) (span : LineSpan)
deriving DecidableEq

namespace Location

/-- Whether the location is in source text. -/
def inSource : Location → Bool
  | none => false
  | source _ _ => true

/-- The location as a decorated name. -/
def render : Location → String
  | none => "None"
  | source unit span => s!"SourceFile({unit}[{span.render}])"

end Location

/-- Where a diagnostic is found in a file outside the session. -/
structure ResolvedLocation where
  path : String
  span : LineSpan
deriving DecidableEq

/-- Path and span. -/
def ResolvedLocation.render (r : ResolvedLocation) : String := s!"{r.path} ({r.span.render})"

end Retrace
