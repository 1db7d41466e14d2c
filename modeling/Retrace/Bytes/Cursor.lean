import Retrace.Bytes.Malformed

/-!
# Reading bytes at a cursor

A `Cursor` is a place in a byte string: how many bytes lie behind it and which bytes are still to
come. A `Decoder` moves the cursor; it may fail, and a failure keeps the cursor where it got to, so
that a caller sees how far a compound read went. Fixed-width reads and `skip` are all or nothing.

`Cursor.Reaches` relates a cursor to the cursors further on in the same bytes. Every decoder of this
library only ever reaches forward (`Decoder.Forward`), which is what loops over a decoder need in
order to end.
-/

namespace Retrace

/-- A place in a byte string. -/
structure Cursor where
  /-- How many bytes lie behind the cursor. -/
  pos : Nat
  /-- The bytes still to come. -/
  rest : List UInt8
deriving DecidableEq

namespace Cursor

/-- The cursor at the start of `bytes`. -/
def ofBytes (bytes : List UInt8) : Cursor := ⟨0, bytes⟩

/-- How many bytes are still to come. -/
def remaining (c : Cursor) : Nat := c.rest.length

/-- Whether any byte is still to come. -/
def hasMore (c : Cursor) : Bool := !c.rest.isEmpty

/-- The cursor `n` bytes further on. -/
def advance (c : Cursor) (n : Nat) : Cursor := ⟨c.pos + n, c.rest.drop n⟩

/-- The second cursor lies at or behind the first one in the same bytes. -/
def Reaches (c d : Cursor) : Prop := ∃ n, n ≤ c.remaining ∧ d = c.advance n

theorem Reaches.refl (c : Cursor) : c.Reaches c := ⟨0, Nat.zero_le _, rfl⟩

/-- What is reached in two moves is reached in one. -/
theorem Reaches.trans {a b c : Cursor} (h₁ : a.Reaches b) (h₂ : b.Reaches c) : a.Reaches c := by
  obtain ⟨m, hm, rfl⟩ := h₁
  obtain ⟨n, hn, rfl⟩ := h₂
  refine ⟨m + n, ?_, ?_⟩
  · simp only [remaining, advance, List.length_drop] at hm hn ⊢
    omega
  · simp [advance, Nat.add_assoc]

/-- A cursor that moves forward has no more bytes in front of it than before. -/
theorem Reaches.remaining_le {c d : Cursor} (h : c.Reaches d) : d.remaining ≤ c.remaining := by
  obtain ⟨n, _, rfl⟩ := h
  simp [remaining, advance]

end Cursor

/-- A computation that reads at a cursor and moves it, whether it succeeds or fails. -/
abbrev Decoder := EStateM DecodeError Cursor

namespace Decoder

/-- Where a result left the cursor. -/
def stop {α : Type} : EStateM.Result DecodeError Cursor α → Cursor
  | .ok _ c => c
  | .error _ c => c

/-- The first `n` bytes and the others, if there are `n`. -/
def splitExact : Nat → List UInt8 → Option (List UInt8 × List UInt8)
  | 0, bytes => some ([], bytes)
  | _ + 1, [] => none
  | n + 1, b :: bytes => (splitExact n bytes).map fun (front, back) => (b :: front, back)

/-- A front of exactly `n` bytes is split off if there are that many, and nothing else can go wrong.
-/
theorem splitExact_eq (n : Nat) (bytes : List UInt8) :
    splitExact n bytes = if n ≤ bytes.length then some (bytes.take n, bytes.drop n) else none := by
  induction bytes generalizing n with
  | nil => cases n <;> simp [splitExact]
  | cons b bytes ih =>
    cases n with
    | zero => simp [splitExact]
    | succ n => by_cases h : n ≤ bytes.length <;> simp [splitExact, ih, h]

/-- The position of the cursor. -/
def position : Decoder Nat := fun c => .ok c.pos c

/-- The next byte. -/
def byte : Decoder UInt8 := fun c =>
  match c.rest with
  | [] => .error .outOfBounds c
  | b :: rest => .ok b ⟨c.pos + 1, rest⟩

/-- The next `n` bytes, or none of them. -/
def take (n : Nat) : Decoder (List UInt8) := fun c =>
  match splitExact n c.rest with
  | none => .error .outOfBounds c
  | some (front, back) => .ok front ⟨c.pos + n, back⟩

/-- Moves the cursor over `n` bytes, or not at all. -/
def skip (n : Nat) : Decoder Unit := fun c =>
  match splitExact n c.rest with
  | none => .error .outOfBounds c
  | some (_, back) => .ok () ⟨c.pos + n, back⟩

/-- The number that bytes spell with the least significant byte first. -/
def ofLittleEndian (bytes : List UInt8) : Nat :=
  bytes.foldr (fun b n => b.toNat + 256 * n) 0

/-- An unsigned integer of `n` bytes. -/
def unsigned (n : Nat) : Decoder Nat := do
  let bytes ← take n
  return ofLittleEndian bytes

/-- A signed integer of `n` bytes in two's complement. -/
def signed (n : Nat) : Decoder Int := do
  let bytes ← take n
  return (ofLittleEndian bytes : Int).bmod (Nat.pow 256 n)

/-! ## What a read does -/

section Read

variable {α β : Type} {d : Decoder α} {c c' : Cursor}

/-- A decoder that succeeds hands its value and its cursor to the next one. -/
theorem bind_of_ok {f : α → Decoder β} {a : α} (h : d c = .ok a c') : (d >>= f) c = f a c' := by
  simp only [Bind.bind, EStateM.bind, h]

/-- The next decoder is never run behind one that fails. -/
theorem bind_of_error {f : α → Decoder β} {e : DecodeError} (h : d c = .error e c') :
    (d >>= f) c = .error e c' := by
  simp only [Bind.bind, EStateM.bind, h]

/-- The bytes at a cursor are split off if as many remain. -/
theorem splitExact_rest (n : Nat) (c : Cursor) : splitExact n c.rest =
    if n ≤ c.remaining then some (c.rest.take n, c.rest.drop n) else none :=
  splitExact_eq n c.rest

/-- Bytes are taken if as many remain; otherwise the cursor stays where it is. -/
theorem take_eq (n : Nat) (c : Cursor) :
    take n c = if n ≤ c.remaining then .ok (c.rest.take n) (c.advance n) else .error .outOfBounds c := by
  rw [take, splitExact_rest]
  by_cases h : n ≤ c.remaining
  · rw [if_pos h, if_pos h]
    rfl
  · rw [if_neg h, if_neg h]

/-- Bytes are skipped if as many remain; otherwise the cursor stays where it is. -/
theorem skip_eq (n : Nat) (c : Cursor) :
    skip n c = if n ≤ c.remaining then .ok () (c.advance n) else .error .outOfBounds c := by
  rw [skip, splitExact_rest]
  by_cases h : n ≤ c.remaining
  · rw [if_pos h, if_pos h]
    rfl
  · rw [if_neg h, if_neg h]

/-- Reading `n` bytes and making something of them: all of it happens, or nothing. -/
theorem take_bind_eq (n : Nat) (f : List UInt8 → α) (c : Cursor) :
    (take n >>= fun front => pure (f front)) c =
      if n ≤ c.remaining then .ok (f (c.rest.take n)) (c.advance n) else .error .outOfBounds c := by
  have htake := take_eq n c
  by_cases h : n ≤ c.remaining
  · rw [if_pos h] at htake ⊢
    exact bind_of_ok htake
  · rw [if_neg h] at htake ⊢
    exact bind_of_error htake

/-- An unsigned number of `n` bytes is read if as many remain, lowest byte first. -/
theorem unsigned_eq (n : Nat) (c : Cursor) : unsigned n c =
    if n ≤ c.remaining then .ok (ofLittleEndian (c.rest.take n)) (c.advance n)
    else .error .outOfBounds c :=
  take_bind_eq n ofLittleEndian c

/-- A signed number of `n` bytes is the unsigned one, wrapped around to both sides of zero. -/
theorem signed_eq (n : Nat) (c : Cursor) : signed n c =
    if n ≤ c.remaining then
      .ok ((ofLittleEndian (c.rest.take n) : Int).bmod (Nat.pow 256 n)) (c.advance n)
    else .error .outOfBounds c :=
  take_bind_eq n (fun front => (ofLittleEndian front : Int).bmod (Nat.pow 256 n)) c

end Read

/-! ## Decoders only reach forward -/

/-- The decoder leaves the cursor at or behind where it was, in the same bytes. -/
def Forward {α : Type} (d : Decoder α) : Prop := ∀ c : Cursor, c.Reaches (stop (d c))

/-- A decoder that reads nothing moves nowhere. -/
theorem Forward.pure {α : Type} (a : α) : Forward (Pure.pure a : Decoder α) :=
  fun c => Cursor.Reaches.refl c

/-- A decoder that fails at once moves nowhere. -/
theorem Forward.throw {α : Type} (e : DecodeError) : Forward (throw e : Decoder α) :=
  fun c => Cursor.Reaches.refl c

/-- Decoders that move forward do so one behind the other. -/
theorem Forward.bind {α β : Type} {d : Decoder α} {f : α → Decoder β} (hd : Forward d)
    (hf : ∀ a, Forward (f a)) : Forward (d >>= f) := by
  intro c
  have h := hd c
  simp only [Bind.bind, EStateM.bind]
  cases hdc : d c with
  | ok a c' =>
    rw [hdc] at h
    exact h.trans (hf a c')
  | error e c' =>
    rw [hdc] at h
    exact h

/-- To ask for the position moves nowhere. -/
theorem forward_position : Forward position := fun c => Cursor.Reaches.refl c

/-- A byte is read forward, also if there is none. -/
theorem forward_byte : Forward byte := by
  intro c
  simp only [byte]
  split
  · exact Cursor.Reaches.refl c
  · next b rest h => exact ⟨1, by simp [Cursor.remaining, h], by simp [stop, Cursor.advance, h]⟩

/-- Bytes are taken forward. -/
theorem forward_take (n : Nat) : Forward (take n) := by
  intro c
  rw [take_eq]
  split
  · next h => exact ⟨n, h, rfl⟩
  · exact Cursor.Reaches.refl c

/-- Bytes are skipped forward. -/
theorem forward_skip (n : Nat) : Forward (skip n) := by
  intro c
  rw [skip_eq]
  split
  · next h => exact ⟨n, h, rfl⟩
  · exact Cursor.Reaches.refl c

/-- Unsigned numbers are read forward. -/
theorem forward_unsigned (n : Nat) : Forward (unsigned n) :=
  (forward_take n).bind fun _ => .pure _

/-- Signed numbers are read forward. -/
theorem forward_signed (n : Nat) : Forward (signed n) :=
  (forward_take n).bind fun _ => .pure _

/-- What begins with a byte and goes on forward leaves fewer bytes whenever it succeeds. -/
theorem remaining_lt_of_byte_bind {α : Type} {f : UInt8 → Decoder α} (hf : ∀ b, Forward (f b))
    {c c' : Cursor} {a : α} (h : (byte >>= f) c = .ok a c') : c'.remaining < c.remaining := by
  simp only [Bind.bind, EStateM.bind, byte] at h
  cases hc : c.rest with
  | nil => simp [hc] at h
  | cons b rest =>
    simp only [hc] at h
    have := (hf b ⟨c.pos + 1, rest⟩).remaining_le
    rw [h] at this
    simp only [stop, Cursor.remaining, hc, List.length_cons] at this ⊢
    omega

end Decoder

end Retrace
