import Retrace.Bytes.Cursor

/-!
# Compressed integers

An integer is stored in one, two or four bytes; the leading bits of the first byte tell which
(`0`, `10`, `110`), and the bits after them are the value, most significant first. A signed integer
is stored with its sign moved to the lowest bit. `Width.encode` and `Width.encodeSigned` write a
value at a chosen width, `Decoder.compressedUnsigned` and `Decoder.compressedSigned` read one.
-/

namespace Retrace

/-- How many bytes a compressed integer takes. -/
inductive Width
  | one | two | four
deriving DecidableEq

namespace Width

/-- The number of bytes. -/
def size : Width → Nat
  | one => 1
  | two => 2
  | four => 4

/-- The first unsigned value that does not fit. -/
def limit : Width → Nat
  | one => 0x80
  | two => 0x4000
  | four => 0x20000000

/-- The first signed value that does not fit; its negative is the least one that does. -/
def signedLimit : Width → Nat
  | one => 0x40
  | two => 0x2000
  | four => 0x10000000

/-- The bytes of an unsigned value below `limit`. -/
def encode : Width → Nat → List UInt8
  | one, n => [UInt8.ofNat n]
  | two, n => [UInt8.ofNat (0x80 + n / 0x100), UInt8.ofNat (n % 0x100)]
  | four, n =>
    [UInt8.ofNat (0xC0 + n / 0x1000000), UInt8.ofNat (n / 0x10000 % 0x100),
      UInt8.ofNat (n / 0x100 % 0x100), UInt8.ofNat (n % 0x100)]

/-- The stored form of a signed value: its low bits followed by its sign. -/
def rotate (w : Width) (v : Int) : Nat :=
  if v < 0 then 2 * (v + w.signedLimit).toNat + 1 else 2 * v.toNat

/-- The bytes of a signed value from `-signedLimit` up to below `signedLimit`. -/
def encodeSigned (w : Width) (v : Int) : List UInt8 := w.encode (w.rotate v)

/-- The signed value that a stored form stands for. -/
def unrotate (w : Width) (n : Nat) : Int :=
  if n % 2 = 0 then (n / 2 : Nat) else (n / 2 : Nat) - w.signedLimit

end Width

namespace Decoder

/-- What a compressed integer is whose first byte has been read. -/
def compressedFrom (first : UInt8) : Decoder (Width × Nat) := do
  if first < 0x80 then
    return (.one, first.toNat)
  else if first < 0xC0 then
    let second ← byte
    return (.two, first.toNat % 0x40 * 0x100 + second.toNat)
  else if first < 0xE0 then
    let second ← byte
    let third ← byte
    let fourth ← byte
    let high := first.toNat % 0x20 * 0x100 + second.toNat
    return (.four, (high * 0x100 + third.toNat) * 0x100 + fourth.toNat)
  else
    throw (.malformed (.compressedInteger first))

/-- A compressed integer as it is stored, with the width it was found in. -/
def compressed : Decoder (Width × Nat) := byte >>= compressedFrom

/-- A compressed unsigned integer. -/
def compressedUnsigned : Decoder Nat := do
  let (_, n) ← compressed
  return n

/-- A compressed signed integer. -/
def compressedSigned : Decoder Int := do
  let (w, n) ← compressed
  return w.unrotate n

/-- The bytes behind a first one are read forward, whatever its tag bits say. -/
theorem forward_compressedFrom (first : UInt8) : Forward (compressedFrom first) := by
  unfold compressedFrom
  split
  · exact .pure _
  split
  · exact forward_byte.bind fun _ => .pure _
  split
  · exact forward_byte.bind fun _ => forward_byte.bind fun _ => forward_byte.bind fun _ => .pure _
  · exact .throw _

/-- A compressed number of either kind is read forward. -/
theorem forward_compressed : Forward compressed := forward_byte.bind forward_compressedFrom

/-- An unsigned compressed number is read forward. -/
theorem forward_compressedUnsigned : Forward compressedUnsigned :=
  forward_compressed.bind fun _ => .pure _

/-- A signed compressed number is read forward. -/
theorem forward_compressedSigned : Forward compressedSigned :=
  forward_compressed.bind fun _ => .pure _

/-- A compressed integer that is read takes at least one byte. -/
theorem remaining_lt_of_compressed {c c' : Cursor} {p : Width × Nat}
    (h : compressed c = .ok p c') : c'.remaining < c.remaining :=
  remaining_lt_of_byte_bind forward_compressedFrom h

/-- A compressed number that is read takes at least one byte, so that a loop over such numbers ends.
-/
theorem remaining_lt_of_compressedUnsigned {c c' : Cursor} {n : Nat}
    (h : compressedUnsigned c = .ok n c') : c'.remaining < c.remaining := by
  simp only [compressedUnsigned, Bind.bind, EStateM.bind] at h
  split at h
  · next p c'' hc =>
    cases h
    exact remaining_lt_of_compressed hc
  · cases h

end Decoder

end Retrace
