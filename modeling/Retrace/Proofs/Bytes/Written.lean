import Retrace.Bytes.Compressed

/-!
# Written integers are read back

`Width.encode` and `Width.encodeSigned` are inverted by the decoders, whatever follows the bytes
(`compressedUnsigned_encode`, `compressedSigned_encodeSigned`). A writer may choose a width for each
integer on its own: `Written` relates integers to all the bytes that they can be written as.

`Decoder.Reads d fields a` says that a decoder makes `a` of these integers, however they are written.
It holds of the two decoders above and is closed under `bind`, so that a compound decoder is followed
integer by integer.
-/

namespace Retrace

namespace Width

/-- One half of the values of a width are negative ones. -/
theorem limit_eq (w : Width) : (w.limit : Int) = 2 * w.signedLimit := by
  cases w <;> rfl

/-- Every value takes at least one byte. -/
theorem encode_ne_nil (w : Width) (n : Nat) : w.encode n ≠ [] := by
  cases w <;> exact List.cons_ne_nil _ _

/-- The stored form of a signed value that fits is an unsigned one that fits. -/
theorem rotate_lt {w : Width} {v : Int} (hlow : -w.signedLimit ≤ v) (hhigh : v < w.signedLimit) :
    w.rotate v < w.limit := by
  have hlimit := w.limit_eq
  unfold rotate
  split
  · omega
  · omega

/-- Turning the sign to the lowest bit and back loses nothing of a value that fits. -/
theorem unrotate_rotate {w : Width} {v : Int} (hlow : -w.signedLimit ≤ v) :
    w.unrotate (w.rotate v) = v := by
  unfold rotate
  split
  · rw [unrotate, if_neg (by omega)]
    omega
  · rw [unrotate, if_pos (by omega)]
    omega

end Width

namespace Decoder

/-- A first byte with a clear top bit is an integer of its own. -/
theorem compressed_one {b : UInt8} (h : b.toNat < 0x80) (pos : Nat) (rest : List UInt8) :
    compressed ⟨pos, b :: rest⟩ = .ok (.one, b.toNat) ⟨pos + 1, rest⟩ := by
  have hone : b < 0x80 := UInt8.lt_iff_toNat_lt.2 h
  show compressedFrom b ⟨pos + 1, rest⟩ = _
  rw [compressedFrom, if_pos hone]
  rfl

/-- A first byte with the bits `10` has six bits of an integer of two bytes. -/
theorem compressed_two {b : UInt8} (hlow : 0x80 ≤ b.toNat) (hhigh : b.toNat < 0xC0) (pos : Nat)
    (second : UInt8) (rest : List UInt8) :
    compressed ⟨pos, b :: second :: rest⟩ =
      .ok (.two, b.toNat % 0x40 * 0x100 + second.toNat) ⟨pos + 2, rest⟩ := by
  have hone : ¬ b < 0x80 := fun h => absurd (UInt8.lt_iff_toNat_lt.1 h) (Nat.not_lt.2 hlow)
  have htwo : b < 0xC0 := UInt8.lt_iff_toNat_lt.2 hhigh
  show compressedFrom b ⟨pos + 1, second :: rest⟩ = _
  rw [compressedFrom, if_neg hone, if_pos htwo]
  rfl

/-- A first byte with the bits `110` has five bits of an integer of four bytes. -/
theorem compressed_four {b : UInt8} (hlow : 0xC0 ≤ b.toNat) (hhigh : b.toNat < 0xE0) (pos : Nat)
    (second third fourth : UInt8) (rest : List UInt8) :
    compressed ⟨pos, b :: second :: third :: fourth :: rest⟩ =
      .ok (.four, ((b.toNat % 0x20 * 0x100 + second.toNat) * 0x100 + third.toNat) * 0x100 +
        fourth.toNat) ⟨pos + 4, rest⟩ := by
  have hone : ¬ b < 0x80 := fun h =>
    absurd (UInt8.lt_iff_toNat_lt.1 h) (Nat.not_lt.2 (Nat.le_trans (by decide) hlow))
  have htwo : ¬ b < 0xC0 := fun h => absurd (UInt8.lt_iff_toNat_lt.1 h) (Nat.not_lt.2 hlow)
  have hfour : b < 0xE0 := UInt8.lt_iff_toNat_lt.2 hhigh
  show compressedFrom b ⟨pos + 1, second :: third :: fourth :: rest⟩ = _
  rw [compressedFrom, if_neg hone, if_neg htwo, if_pos hfour]
  rfl

/-- A value below 256 is kept by a byte. -/
theorem toNat_ofNat_of_lt {n : Nat} (h : n < 0x100) : (UInt8.ofNat n).toNat = n := by
  rw [UInt8.toNat_ofNat', Nat.mod_eq_of_lt h]

/-- A value that fits is read back at the width that it was written at. -/
theorem compressed_encode {w : Width} {n : Nat} (h : n < w.limit) (pos : Nat) (rest : List UInt8) :
    compressed ⟨pos, w.encode n ++ rest⟩ = .ok (w, n) ⟨pos + (w.encode n).length, rest⟩ := by
  cases w with
  | one =>
    have hn : n < 0x80 := h
    have hfirst := toNat_ofNat_of_lt (n := n) (by omega)
    show compressed ⟨pos, UInt8.ofNat n :: rest⟩ = _
    rw [compressed_one (by rw [hfirst]; exact hn), hfirst]
    rfl
  | two =>
    have hn : n < 0x4000 := h
    have hfirst := toNat_ofNat_of_lt (n := 0x80 + n / 0x100) (by omega)
    have hsecond := toNat_ofNat_of_lt (n := n % 0x100) (by omega)
    show compressed ⟨pos, UInt8.ofNat (0x80 + n / 0x100) :: UInt8.ofNat (n % 0x100) :: rest⟩ = _
    rw [compressed_two (by rw [hfirst]; omega) (by rw [hfirst]; omega), hfirst, hsecond]
    -- the bits behind the mark and the second byte make up the value again
    have hvalue : (0x80 + n / 0x100) % 0x40 * 0x100 + n % 0x100 = n := by omega
    rw [hvalue]
    rfl
  | four =>
    have hn : n < 0x20000000 := h
    have hfirst := toNat_ofNat_of_lt (n := 0xC0 + n / 0x1000000) (by omega)
    have hsecond := toNat_ofNat_of_lt (n := n / 0x10000 % 0x100) (by omega)
    have hthird := toNat_ofNat_of_lt (n := n / 0x100 % 0x100) (by omega)
    have hfourth := toNat_ofNat_of_lt (n := n % 0x100) (by omega)
    show compressed ⟨pos, UInt8.ofNat (0xC0 + n / 0x1000000) :: UInt8.ofNat (n / 0x10000 % 0x100) ::
      UInt8.ofNat (n / 0x100 % 0x100) :: UInt8.ofNat (n % 0x100) :: rest⟩ = _
    rw [compressed_four (by rw [hfirst]; omega) (by rw [hfirst]; omega), hfirst, hsecond, hthird,
      hfourth]
    have hvalue : (((0xC0 + n / 0x1000000) % 0x20 * 0x100 + n / 0x10000 % 0x100) * 0x100 +
        n / 0x100 % 0x100) * 0x100 + n % 0x100 = n := by omega
    rw [hvalue]
    rfl

end Decoder

/-! ## Integers in any width -/

/-- An integer that is to be written. -/
inductive Field
  | unsigned (n : Nat)
  | signed (v : Int)

/-- The integer can be written as these bytes, in one of the widths that can hold it. -/
inductive Field.Written : Field → List UInt8 → Prop
  | unsigned {w : Width} {n : Nat} (h : n < w.limit) : Written (.unsigned n) (w.encode n)
  | signed {w : Width} {v : Int} (hlow : -w.signedLimit ≤ v) (hhigh : v < w.signedLimit) :
    Written (.signed v) (w.encodeSigned v)

/-- The integers can be written as these bytes, one after the other. -/
inductive Written : List Field → List UInt8 → Prop
  | nil : Written [] []
  | cons {field : Field} {fields : List Field} {front back : List UInt8}
    (hfront : field.Written front) (hback : Written fields back) :
    Written (field :: fields) (front ++ back)

/-- An integer is never written as no bytes at all. -/
theorem Field.Written.ne_nil {field : Field} {bytes : List UInt8} (h : field.Written bytes) :
    bytes ≠ [] := by
  cases h with
  | unsigned h => exact Width.encode_ne_nil _ _
  | signed hlow hhigh => exact Width.encode_ne_nil _ _

/-- Nor are several. -/
theorem Written.ne_nil {field : Field} {fields : List Field} {bytes : List UInt8}
    (h : Written (field :: fields) bytes) : bytes ≠ [] := by
  cases h with
  | cons hfront hback => exact fun h => hfront.ne_nil (List.append_eq_nil_iff.1 h).1

/-- What is written for two lists of integers can be cut between them. -/
theorem Written.split {fields others : List Field} {bytes : List UInt8}
    (h : Written (fields ++ others) bytes) :
    ∃ front back, bytes = front ++ back ∧ Written fields front ∧ Written others back := by
  induction fields generalizing bytes with
  | nil => exact ⟨[], bytes, rfl, .nil, h⟩
  | cons field fields ih =>
    cases h with
    | @cons _ _ first rest hfirst hrest =>
      obtain ⟨front, back, rfl, hfront, hback⟩ := ih hrest
      exact ⟨first ++ front, back, (List.append_assoc _ _ _).symm, .cons hfirst hfront, hback⟩

/-- Some width can hold the integer, and so the widest one. -/
def Field.Fits : Field → Prop
  | unsigned n => n < Width.four.limit
  | signed v => -Width.four.signedLimit ≤ v ∧ v < Width.four.signedLimit

/-- An integer that fits can be written. -/
theorem Field.Fits.exists_written {field : Field} (h : field.Fits) :
    ∃ bytes, field.Written bytes := by
  cases field with
  | unsigned n => exact ⟨_, .unsigned h⟩
  | signed v => exact ⟨_, .signed h.1 h.2⟩

/-- Integers that all fit can be written. -/
theorem exists_written {fields : List Field} (h : ∀ field ∈ fields, field.Fits) :
    ∃ bytes, Written fields bytes := by
  induction fields with
  | nil => exact ⟨[], .nil⟩
  | cons field fields ih =>
    obtain ⟨front, hfront⟩ := (h field List.mem_cons_self).exists_written
    obtain ⟨back, hback⟩ := ih fun other hother => h other (List.mem_cons_of_mem field hother)
    exact ⟨front ++ back, .cons hfront hback⟩

namespace Decoder

variable {α β : Type} {d : Decoder α} {f : α → Decoder β} {a : α} {b : β}
  {fields others : List Field}

/-- The decoder makes `a` of these integers, however they are written and whatever follows. -/
def Reads (d : Decoder α) (fields : List Field) (a : α) : Prop :=
  ∀ bytes, Written fields bytes → ∀ pos rest,
    d ⟨pos, bytes ++ rest⟩ = .ok a ⟨pos + bytes.length, rest⟩

/-- A value can be made of no integers. -/
theorem Reads.pure (a : α) : Reads (Pure.pure a) [] a := by
  intro bytes h pos rest
  cases h
  rfl

/-- Decoders that read some integers each read all of them, one behind the other. -/
theorem Reads.bind (hd : Reads d fields a) (hf : Reads (f a) others b) :
    Reads (d >>= f) (fields ++ others) b := by
  intro bytes h pos rest
  obtain ⟨front, back, rfl, hfront, hback⟩ := h.split
  rw [List.append_assoc, bind_of_ok (hd front hfront pos (back ++ rest)), List.length_append,
    ← Nat.add_assoc]
  exact hf back hback (pos + front.length) rest

/-- The first step reads one integer. -/
theorem Reads.bind_cons {field : Field} (hd : Reads d [field] a) (hf : Reads (f a) others b) :
    Reads (d >>= f) (field :: others) b := hd.bind hf

/-- The first step reads everything. -/
theorem Reads.bind_nil (hd : Reads d fields a) (hf : Reads (f a) [] b) :
    Reads (d >>= f) fields b := by
  have h := hd.bind hf
  rwa [List.append_nil] at h

/-- An unsigned integer is read in whichever width it is written. -/
theorem reads_compressedUnsigned (n : Nat) : Reads compressedUnsigned [.unsigned n] n := by
  intro bytes h pos rest
  rcases h with _ | ⟨⟨hfits⟩, ⟨⟩⟩
  rw [List.append_nil, compressedUnsigned, bind_of_ok (compressed_encode hfits pos rest)]
  rfl

/-- A signed integer is read in whichever width it is written. -/
theorem reads_compressedSigned (v : Int) : Reads compressedSigned [.signed v] v := by
  intro bytes h pos rest
  rcases h with _ | ⟨_ | ⟨hlow, hhigh⟩, ⟨⟩⟩
  rw [List.append_nil, compressedSigned, Width.encodeSigned,
    bind_of_ok (compressed_encode (Width.rotate_lt hlow hhigh) pos rest)]
  dsimp only
  rw [Width.unrotate_rotate hlow]
  rfl

end Decoder

end Retrace
