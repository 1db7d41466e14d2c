import Mathlib.Algebra.Group.Nat.Defs
import Mathlib.Algebra.Ring.Int.Defs
import Retrace.Proofs.Bytes.Extended
import Retrace.Proofs.Bytes.Written

/-!
# The bytes of compressed integers

The three widths of a compressed integer hold 7, 14 and 29 bits, and the first byte tells them apart
(`Width.head?_encode`). So bytes begin with an integer, whatever its width, or their first byte is one
that no integer begins with (`announces_iff`), or they are the beginning of an integer that is cut off.
A signed integer is stored as its two's complement in the bits of the width, turned left by one
(`Width.rotate_eq`), which brings its sign to the lowest bit.

What the decoders make of the three cases does not depend on where in the data they start:

* `compressed_encode` : an integer is read back, with its width;
* `compressed_of_reserved` : a first byte of no integer is malformed;
* `compressed_take_encode` : the bytes of an integer that is cut off run out. That they do is a matter of
  `Decoder.Stable`; that nothing is left of them then, one of `Decoder.Drains`.
-/

namespace Retrace

/-- The cursor behind some bytes and in front of others. -/
def Cursor.between (before behind : List UInt8) : Cursor :=
  (Cursor.ofBytes (before ++ behind)).advance before.length

/-- The position of a cursor between two texts is the length of the first one. -/
theorem Cursor.between_eq (before behind : List UInt8) :
    Cursor.between before behind = ⟨before.length, behind⟩ := by
  simp [between, ofBytes, advance]

/-! ## Widths -/

namespace Width

/-- The number of bits that a value has. -/
def bits : Width → Nat
  | one => 7
  | two => 14
  | four => 29

/-- Each width holds all values of its number of bits. -/
theorem limit_eq_two_pow (w : Width) : w.limit = 2 ^ w.bits := by cases w <;> rfl

/-- The signed values of a width are those of one bit less, on both sides of zero. -/
theorem signedLimit_eq_two_pow (w : Width) : (w.signedLimit : Int) = 2 ^ (w.bits - 1) := by
  cases w <;> rfl

/-- A width has at least one bit for the sign and one for the value. -/
theorem one_lt_bits (w : Width) : 1 < w.bits := by cases w <;> decide

/-- A value takes as many bytes as its width says. -/
theorem length_encode (w : Width) (n : Nat) : (w.encode n).length = w.size := by cases w <;> rfl

end Width

/-- Turning bits left by one doubles their value and moves the highest bit to the lowest place. -/
theorem toNat_rotateLeft_one {n : Nat} (h : 1 < n) (x : BitVec n) :
    (x.rotateLeft 1).toNat = 2 * x.toNat % 2 ^ n + x.toNat / 2 ^ (n - 1) := by
  have htop : x.toNat / 2 ^ (n - 1) < 2 ^ 1 := by
    rw [Nat.div_lt_iff_lt_mul (Nat.two_pow_pos _), ← Nat.pow_add, Nat.add_sub_cancel' (Nat.le_of_lt h)]
    exact x.isLt
  have hlow : 2 * x.toNat % 2 ^ n = 2 ^ 1 * (x.toNat % 2 ^ (n - 1)) := by
    rw [← Nat.mul_mod_mul_left, ← Nat.pow_add, Nat.add_sub_cancel' (Nat.le_of_lt h), Nat.pow_one]
  rw [BitVec.toNat_rotateLeft, Nat.mod_eq_of_lt h, Nat.shiftLeft_eq, Nat.shiftRight_eq_div_pow,
    Nat.mul_comm, Nat.pow_one, hlow, ← Nat.two_pow_add_eq_or_of_lt htop]

/-- The stored form of a signed value is its two's complement, turned left by one bit. -/
theorem Width.rotate_eq {w : Width} {v : Int} (hlow : -2 ^ (w.bits - 1) ≤ v)
    (hhigh : v < 2 ^ (w.bits - 1)) :
    w.rotate v = ((BitVec.ofInt w.bits v).rotateLeft 1).toNat := by
  rw [toNat_rotateLeft_one w.one_lt_bits, BitVec.toNat_ofInt]
  cases w
  all_goals
    simp only [bits, rotate, signedLimit] at hlow hhigh ⊢
    split
    · omega
    · omega

/-! ## First bytes -/

namespace Width

/-- The leading bits of the first byte that tell the width. -/
def mark : Width → Nat
  | one => 0
  | two => 0x80
  | four => 0xC0

/-- How many values have the same first byte. -/
def share : Width → Nat
  | one => 1
  | two => 0x100
  | four => 0x1000000

theorem share_pos (w : Width) : 0 < w.share := by cases w <;> decide

/-- The first byte of a value has the mark of the width and the highest bits of the value. -/
theorem head?_encode (w : Width) (n : Nat) :
    (w.encode n).head? = some (UInt8.ofNat (w.mark + n / w.share)) := by
  cases w with
  | one => simp [encode, mark, share]
  | two => rfl
  | four => rfl

/-- The first byte of a value that fits is below all bytes that are reserved. -/
theorem mark_add_lt {w : Width} {n : Nat} (h : n < w.limit) : w.mark + n / w.share < 0xE0 := by
  cases w
  all_goals
    simp only [limit, mark, share] at h ⊢
    omega

end Width

/-- Some integer begins with this byte. -/
def Announces (first : UInt8) : Prop :=
  ∃ (w : Width) (n : Nat), n < 2 ^ w.bits ∧ (w.encode n).head? = some first

/-- A byte with the mark of a width begins an integer, if the bits behind the mark fit. -/
theorem announces_of_mark {first : UInt8} (w : Width) (hmark : w.mark ≤ first.toNat)
    (hfits : (first.toNat - w.mark) * w.share < w.limit) : Announces first := by
  refine ⟨w, (first.toNat - w.mark) * w.share, w.limit_eq_two_pow ▸ hfits, ?_⟩
  rw [w.head?_encode, Nat.mul_div_cancel _ w.share_pos, Nat.add_sub_cancel' hmark, UInt8.ofNat_toNat]

/-- Integers begin with exactly the bytes below the reserved ones. -/
theorem announces_iff {first : UInt8} : Announces first ↔ first < 0xE0 := by
  rw [UInt8.lt_iff_toNat_lt]
  constructor
  · rintro ⟨w, n, hn, hfirst⟩
    have hlt : w.mark + n / w.share < 0xE0 := Width.mark_add_lt (w.limit_eq_two_pow ▸ hn)
    rw [w.head?_encode] at hfirst
    obtain rfl := Option.some.inj hfirst
    rw [Decoder.toNat_ofNat_of_lt (by omega)]
    exact hlt
  · intro hfirst
    have hfirst : first.toNat < 0xE0 := hfirst
    by_cases hone : first.toNat < 0x80
    · refine announces_of_mark .one (Nat.zero_le _) ?_
      show (first.toNat - 0) * 1 < 0x80
      omega
    by_cases htwo : first.toNat < 0xC0
    · refine announces_of_mark .two (Nat.not_lt.1 hone) ?_
      show (first.toNat - 0x80) * 0x100 < 0x4000
      omega
    · refine announces_of_mark .four (Nat.not_lt.1 htwo) ?_
      show (first.toNat - 0xC0) * 0x1000000 < 0x20000000
      omega

namespace Decoder

variable {α β : Type} {d : Decoder α} {f : α → Decoder β} {a : α} {front missing : List UInt8}
  {w : Width}

/-- A first byte that no integer begins with is malformed. -/
theorem compressed_of_reserved {first : UInt8} (h : 0xE0 ≤ first) (pos : Nat) (rest : List UInt8) :
    compressed ⟨pos, first :: rest⟩ =
      .error (.malformed (.compressedInteger first)) ⟨pos + 1, rest⟩ := by
  have hfour : ¬ first < 0xE0 := UInt8.not_lt.2 h
  have htwo : ¬ first < 0xC0 := UInt8.not_lt.2 (UInt8.le_trans (by decide) h)
  have hone : ¬ first < 0x80 := UInt8.not_lt.2 (UInt8.le_trans (by decide) h)
  show compressedFrom first ⟨pos + 1, rest⟩ = _
  rw [compressedFrom, if_neg hone, if_neg htwo, if_neg hfour]
  rfl

/-! ## Bytes that run out -/

/-- When the decoder runs out of bytes, it has moved over all of them. -/
def Drains (d : Decoder α) : Prop := ∀ c c', d c = .error .outOfBounds c' → c'.rest = []

/-- A decoder that does not fail does not run out of bytes. -/
theorem Drains.pure (a : α) : Drains (Pure.pure a : Decoder α) := by
  intro c c' h
  cases h

/-- A decoder that fails for another reason does not run out of bytes. -/
theorem Drains.throw (cause : Malformed) : Drains (throw (.malformed cause) : Decoder α) := by
  intro c c' h
  cases h

/-- If two decoders move over all bytes before they run out, so do both together. -/
theorem Drains.bind (hd : Drains d) (hf : ∀ a, Drains (f a)) : Drains (d >>= f) := by
  intro c c' h
  simp only [Bind.bind, EStateM.bind] at h
  cases hc : d c with
  | ok a c₁ =>
    rw [hc] at h
    exact hf a c₁ c' h
  | error e c₁ =>
    rw [hc] at h
    cases h
    exact hd c c' hc

/-- No byte is missing unless there is none left. -/
theorem drains_byte : Drains byte := by
  intro c c' h
  obtain ⟨pos, rest⟩ := c
  cases rest with
  | nil =>
    cases h
    rfl
  | cons first rest => cases h

/-- The bytes behind a first one run out at the end only. -/
theorem drains_compressedFrom (first : UInt8) : Drains (compressedFrom first) := by
  unfold compressedFrom
  split
  · exact .pure _
  split
  · exact drains_byte.bind fun _ => .pure _
  split
  · exact drains_byte.bind fun _ => drains_byte.bind fun _ => drains_byte.bind fun _ => .pure _
  · exact .throw _

/-- A compressed integer runs out of bytes at the end only. -/
theorem drains_compressed : Drains compressed := drains_byte.bind drains_compressedFrom

/-- What is read to the end of its bytes runs out of them when some are missing there. -/
theorem Stable.of_cut (hstable : Stable d) (hforward : Forward d) (hdrains : Drains d)
    {pos stop : Nat} (h : d ⟨pos, front ++ missing⟩ = .ok a ⟨stop, []⟩) (hmissing : missing ≠ []) :
    d ⟨pos, front⟩ = .error .outOfBounds ⟨pos + front.length, []⟩ := by
  have hwhole : d (Cursor.extend ⟨pos, front⟩ missing) = .ok a ⟨stop, []⟩ := h
  rcases hstable.of_extend_ok hwhole with ⟨c, hout⟩ | ⟨c, -, hrest⟩
  · have hreaches := hforward ⟨pos, front⟩
    have hnone : c.rest = [] := hdrains _ _ hout
    rw [hout] at hreaches ⊢
    obtain ⟨n, hn, rfl⟩ := hreaches
    have hn : n ≤ front.length := hn
    have hall : n = front.length := Nat.le_antisymm hn (List.drop_eq_nil_iff.1 hnone)
    rw [hall]
    show EStateM.Result.error _ (Cursor.mk (pos + front.length) (front.drop front.length)) = _
    rw [List.drop_length]
  · -- the bytes that are there would do without the missing ones, but none may be left over
    have hnil : [] = c.rest ++ missing := congrArg Cursor.rest hrest
    exact absurd (List.append_eq_nil_iff.1 hnil.symm).2 hmissing

/-- An integer that is cut off runs out of bytes, wherever it is cut. -/
theorem compressed_take_encode {n k : Nat} (h : n < w.limit) (hk : k < w.size) (pos : Nat) :
    compressed ⟨pos, (w.encode n).take k⟩ = .error .outOfBounds ⟨pos + k, []⟩ := by
  have hlength : ((w.encode n).take k).length = k :=
    List.length_take_of_le (Nat.le_of_lt (w.length_encode n ▸ hk))
  have hmissing : (w.encode n).drop k ≠ [] := by
    apply List.ne_nil_of_length_pos
    rw [List.length_drop, w.length_encode]
    omega
  have hwhole := compressed_encode h pos []
  rw [List.append_nil, ← List.take_append_drop k (w.encode n)] at hwhole
  have hcut := stable_compressed.of_cut forward_compressed drains_compressed hwhole hmissing
  rwa [hlength] at hcut

/-! ## Integers among other bytes -/

/-- What is written in a width is read back, whatever follows it. -/
theorem compressedUnsigned_encode {n : Nat} (h : n < w.limit) (pos : Nat) (rest : List UInt8) :
    compressedUnsigned ⟨pos, w.encode n ++ rest⟩ = .ok n ⟨pos + w.size, rest⟩ := by
  have hread := reads_compressedUnsigned n _ (.cons (.unsigned h) .nil) pos rest
  rwa [List.append_nil, w.length_encode] at hread

/-- So is a signed value, from the lowest to the highest that the width holds. -/
theorem compressedSigned_encodeSigned {v : Int} (hlow : -w.signedLimit ≤ v)
    (hhigh : v < w.signedLimit) (pos : Nat) (rest : List UInt8) :
    compressedSigned ⟨pos, w.encodeSigned v ++ rest⟩ = .ok v ⟨pos + w.size, rest⟩ := by
  have hread := reads_compressedSigned v _ (.cons (.signed hlow hhigh) .nil) pos rest
  rwa [List.append_nil, Width.encodeSigned, w.length_encode] at hread

/-- Wherever an integer is among other bytes, the decoders give the value that its bytes were made of,
whichever of the widths that can hold it was chosen, and move over these bytes and no others. Where it
is cut off by the end of the data, they run out of bytes. Any byte that no integer begins with is
malformed, and these are the bytes from `0xE0` on. A signed value is stored as its two's complement in
the bits of the width, turned left by one. -/
theorem compressed_inverts_encode (before behind : List UInt8) (w : Width) :
    (∀ n < 2 ^ w.bits,
      compressedUnsigned (.between before (w.encode n ++ behind)) =
        .ok n ⟨before.length + w.size, behind⟩ ∧
      ∀ k < w.size, compressedUnsigned (.between before ((w.encode n).take k)) =
        .error .outOfBounds ⟨before.length + k, []⟩) ∧
    (∀ v : Int, -2 ^ (w.bits - 1) ≤ v → v < 2 ^ (w.bits - 1) →
      w.encodeSigned v = w.encode ((BitVec.ofInt w.bits v).rotateLeft 1).toNat ∧
      compressedSigned (.between before (w.encodeSigned v ++ behind)) =
        .ok v ⟨before.length + w.size, behind⟩ ∧
      ∀ k < w.size, compressedSigned (.between before ((w.encodeSigned v).take k)) =
        .error .outOfBounds ⟨before.length + k, []⟩) ∧
    ∀ first : UInt8, (¬ Announces first ↔ 0xE0 ≤ first) ∧
      (0xE0 ≤ first →
        compressedUnsigned (.between before (first :: behind)) =
          .error (.malformed (.compressedInteger first)) ⟨before.length + 1, behind⟩ ∧
        compressedSigned (.between before (first :: behind)) =
          .error (.malformed (.compressedInteger first)) ⟨before.length + 1, behind⟩) := by
  simp only [Cursor.between_eq]
  refine ⟨fun n hn => ?_, fun v hlow hhigh => ?_, fun first => ⟨?_, fun hfirst => ?_⟩⟩
  · rw [← w.limit_eq_two_pow] at hn
    refine ⟨compressedUnsigned_encode hn before.length behind, fun k hk => ?_⟩
    exact bind_of_error (compressed_take_encode hn hk before.length)
  · have hstored := Width.rotate_eq hlow hhigh
    rw [← w.signedLimit_eq_two_pow] at hlow hhigh
    refine ⟨?_, compressedSigned_encodeSigned hlow hhigh before.length behind, fun k hk => ?_⟩
    · rw [Width.encodeSigned, hstored]
    · exact bind_of_error (compressed_take_encode (Width.rotate_lt hlow hhigh) hk before.length)
  · rw [announces_iff, UInt8.not_lt]
  · have hreserved := compressed_of_reserved hfirst before.length behind
    exact ⟨bind_of_error hreserved, bind_of_error hreserved⟩

/-- In four bytes, the value that two bytes could hold as well: it is read back from behind another byte.
The first two of the four bytes are not enough. The least signed value of two bytes is stored as a
single bit. -/
theorem compressed_inverts_encode_of_wide :
    Width.four.encode 3 = [0xC0, 0x00, 0x00, 0x03] ∧
      compressedUnsigned (.between [0xFF] (Width.four.encode 3 ++ [0x07])) = .ok 3 ⟨5, [0x07]⟩ ∧
      compressedUnsigned (.between [0xFF] ((Width.four.encode 3).take 2)) =
        .error .outOfBounds ⟨3, []⟩ ∧
      Width.two.encodeSigned (-8192) = [0x80, 0x01] ∧
      compressedSigned (.between [0xFF] (Width.two.encodeSigned (-8192) ++ [0x07])) =
        .ok (-8192) ⟨3, [0x07]⟩ ∧
      compressedSigned (.between [0xFF] [0xE0, 0x07]) =
        .error (.malformed (.compressedInteger 0xE0)) ⟨2, [0x07]⟩ := by
  obtain ⟨hunsigned, -, hreserved⟩ := compressed_inverts_encode [0xFF] [0x07] .four
  obtain ⟨-, hsigned, -⟩ := compressed_inverts_encode [0xFF] [0x07] .two
  obtain ⟨hread, hcut⟩ := hunsigned 3 (by decide)
  obtain ⟨-, hnegative, -⟩ := hsigned (-8192) (by decide) (by decide)
  exact ⟨by decide, hread, hcut 2 (by decide), by decide, hnegative,
    ((hreserved 0xE0).2 (by decide)).2⟩

end Decoder

end Retrace
