import Mathlib.Data.Nat.Digits.Defs
import Retrace.Bytes.Compressed
import Retrace.Cil.Boundary

/-!
# Cursors that are used again and again

A cursor may be read from in any order of widths and forms, and a read that fails does not end its use: the
next one starts where the failed one got to. `Move` lists what a cursor is used for, and `Cursor.after` is
the cursor behind a run of moves.

No move reaches back, not even one that fails halfway (`Move.forward`), and so neither does a run
(`reaches_after`). A cursor that is reached from the first byte is a place in the bytes
(`reaches_ofBytes_iff`), whatever was read on the way. What a read of a given number of bytes does there
is one statement for all of them (`Decoder.take_bind_eq`): it compares this number with the bytes that are
left, and never adds it to the position before it has found that they are enough.
-/

namespace Retrace

namespace Cursor

variable {c d : Cursor} {bytes : List UInt8}

/-- A cursor that moves forward is at no earlier position than before. -/
theorem Reaches.pos_le (h : c.Reaches d) : c.pos ≤ d.pos := by
  obtain ⟨n, -, rfl⟩ := h
  exact Nat.le_add_right c.pos n

/-- From the first byte, exactly the places in the bytes and the one behind them are reached. -/
theorem reaches_ofBytes_iff :
    (ofBytes bytes).Reaches c ↔ c.pos ≤ bytes.length ∧ c.rest = bytes.drop c.pos := by
  obtain ⟨pos, rest⟩ := c
  constructor
  · rintro ⟨n, hn, h⟩
    obtain ⟨rfl, rfl⟩ := Cursor.mk.inj h
    refine ⟨?_, ?_⟩
    · show 0 + n ≤ bytes.length
      rw [Nat.zero_add]
      exact hn
    · show bytes.drop n = bytes.drop (0 + n)
      rw [Nat.zero_add]
  · rintro ⟨hpos, hrest⟩
    have hrest : rest = bytes.drop pos := hrest
    refine ⟨pos, hpos, ?_⟩
    rw [hrest, advance, ofBytes, Nat.zero_add]

/-- There is more to read if and only if some bytes remain. -/
theorem hasMore_iff (c : Cursor) : c.hasMore = true ↔ 0 < c.remaining := by
  rw [hasMore, remaining, List.length_pos_iff, Bool.not_eq_true', List.isEmpty_eq_false_iff]

end Cursor

/-! ## Numbers of a given number of bytes -/

namespace Decoder

/-- The number that bytes spell is the one whose digits to base 256 they are, the lowest digit first. -/
theorem ofLittleEndian_eq (bytes : List UInt8) :
    ofLittleEndian bytes = Nat.ofDigits 256 (bytes.map UInt8.toNat) := by
  induction bytes with
  | nil => rfl
  | cons b bytes ih =>
    rw [List.map_cons, Nat.ofDigits_cons, ← ih]
    rfl

/-- To wrap around to both sides of zero is to read the bits as a signed number. -/
theorem bmod_eq_toInt (n k : Nat) :
    (k : Int).bmod (Nat.pow 256 n) = (BitVec.ofNat (8 * n) k).toInt := by
  rw [BitVec.toInt_ofNat', Nat.pow_mul]
  rfl

end Decoder

/-! ## Runs of moves -/

/-- What a cursor is used for. -/
inductive Move
  /-- An unsigned integer of `size` bytes. -/
  | unsigned (size : Nat)
  /-- A signed integer of `size` bytes. -/
  | signed (size : Nat)
  /-- Moving over `count` bytes. -/
  | skip (count : Nat)
  | compressedUnsigned
  | compressedSigned
  /-- The instruction at the cursor. -/
  | instruction

namespace Move

/-- What a move that succeeds gives. -/
def Answer : Move → Type
  | unsigned _ => Nat
  | signed _ => Int
  | skip _ => Unit
  | compressedUnsigned => Nat
  | compressedSigned => Int
  | instruction => Cil.Boundary

/-- The decoder that a move runs. -/
def decoder : (m : Move) → Decoder m.Answer
  | unsigned size => Decoder.unsigned size
  | signed size => Decoder.signed size
  | skip count => Decoder.skip count
  | compressedUnsigned => Decoder.compressedUnsigned
  | compressedSigned => Decoder.compressedSigned
  | instruction => Cil.instruction

/-- No use of a cursor moves it back. -/
theorem forward (m : Move) : Decoder.Forward m.decoder := by
  cases m with
  | unsigned size => exact Decoder.forward_unsigned size
  | signed size => exact Decoder.forward_signed size
  | skip count => exact Decoder.forward_skip count
  | compressedUnsigned => exact Decoder.forward_compressedUnsigned
  | compressedSigned => exact Decoder.forward_compressedSigned
  | instruction => exact Cil.forward_instruction

end Move

namespace Cursor

open Decoder

/-- The cursor where a move leaves it, whether the move succeeds or fails. -/
def move (c : Cursor) (m : Move) : Cursor := stop (m.decoder c)

/-- The cursor after moves, one after the other. -/
def after (c : Cursor) (moves : List Move) : Cursor := moves.foldl move c

/-- Moves in two parts are one part after the other. -/
theorem after_append (c : Cursor) (moves more : List Move) :
    c.after (moves ++ more) = (c.after moves).after more := List.foldl_append

/-- However many moves are made, and whether or not they fail, the cursor has only moved forward. -/
theorem reaches_after (c : Cursor) (moves : List Move) : c.Reaches (c.after moves) := by
  induction moves generalizing c with
  | nil => exact .refl c
  | cons m rest ih => exact (m.forward c).trans (ih (c.move m))

/-- A cursor stays in its bytes, whatever it is used for, how often, and how many of the moves fail.
It never moves back, however the run goes on, and knows at each place how many bytes are left. Asked
there for a given number of bytes, it moves over exactly these if as many are left, and makes of them the
number whose digits they are, the lowest first, or the value that has these digits in two's complement;
otherwise it stays where it is. -/
theorem after_in_bounds (bytes : List UInt8) (moves : List Move) :
    let c := (ofBytes bytes).after moves
    (c.pos ≤ bytes.length ∧ c.rest = bytes.drop c.pos ∧ c.remaining = bytes.length - c.pos ∧
      (c.hasMore = true ↔ 0 < c.remaining)) ∧
    (∀ more : List Move, c.pos ≤ ((ofBytes bytes).after (moves ++ more)).pos) ∧
    ∀ n : Nat,
      (n ≤ c.remaining →
        let digits := ((bytes.drop c.pos).take n).map UInt8.toNat
        let behind : Cursor := ⟨c.pos + n, bytes.drop (c.pos + n)⟩
        unsigned n c = .ok (Nat.ofDigits 256 digits) behind ∧
        signed n c = .ok (BitVec.ofNat (8 * n) (Nat.ofDigits 256 digits)).toInt behind ∧
        skip n c = .ok () behind) ∧
      (c.remaining < n →
        unsigned n c = .error .outOfBounds c ∧ signed n c = .error .outOfBounds c ∧
        skip n c = .error .outOfBounds c) := by
  intro c
  obtain ⟨hpos, hrest⟩ : c.pos ≤ bytes.length ∧ c.rest = bytes.drop c.pos :=
    reaches_ofBytes_iff.1 (reaches_after _ _)
  refine ⟨⟨hpos, hrest, ?_, c.hasMore_iff⟩, fun more => ?_, fun n => ⟨fun hn => ?_, fun hn => ?_⟩⟩
  · rw [remaining, hrest, List.length_drop]
  · rw [after_append]
    exact (c.reaches_after more).pos_le
  · have hbehind : c.advance n = ⟨c.pos + n, bytes.drop (c.pos + n)⟩ := by
      rw [advance, hrest, List.drop_drop]
    rw [unsigned_eq, signed_eq, skip_eq, if_pos hn, if_pos hn, if_pos hn,
      ofLittleEndian_eq, bmod_eq_toInt, hrest, hbehind]
    exact ⟨rfl, rfl, rfl⟩
  · have hn : ¬ n ≤ c.remaining := Nat.not_le.2 hn
    rw [unsigned_eq, signed_eq, skip_eq, if_neg hn, if_neg hn, if_neg hn]
    exact ⟨rfl, rfl, rfl⟩

/-- Behind a reserved opcode and a first byte of no integer, both of which are moved over, the cursor does
not move over more bytes than there are, and reads a negative number. A number that is cut off behind it
takes the cursor to the end. -/
theorem after_in_bounds_of_failing :
    let bytes : List UInt8 := [0x24, 0xE1, 0xFE, 0xFF, 0x80]
    let moves : List Move := [.instruction, .compressedUnsigned]
    let more : List Move := [.signed 2, .compressedSigned]
    let c := (ofBytes bytes).after moves
    let d := (ofBytes bytes).after (moves ++ more)
    c = ⟨2, [0xFE, 0xFF, 0x80]⟩ ∧
      skip 0xFFFFFFFFFFFFFFFF c = .error .outOfBounds c ∧
      signed 2 c = .ok (-2) ⟨4, [0x80]⟩ ∧
      c.pos ≤ d.pos ∧ d = ⟨5, []⟩ := by
  intro bytes moves more c d
  have hc : c = ⟨2, [0xFE, 0xFF, 0x80]⟩ := by decide
  obtain ⟨-, hlater, hreads⟩ := after_in_bounds bytes moves
  have hfew : c.remaining < 0xFFFFFFFFFFFFFFFF := by
    rw [hc]
    decide
  have htwo : 2 ≤ c.remaining := by
    rw [hc]
    decide
  refine ⟨hc, ((hreads _).2 hfew).2.2, ((hreads 2).1 htwo).2.1.trans ?_, hlater more, by decide⟩
  rfl

end Cursor

end Retrace
