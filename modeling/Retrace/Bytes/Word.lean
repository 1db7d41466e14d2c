/-!
# Words

Offsets, rows and coordinates are kept in words of 32 bits, and some numbers in words of 64 bits.
The library computes with unbounded numbers and compares them with the first number that no longer
fits.
-/

namespace Retrace

/-- The first number that 32 bits cannot hold. -/
def wordLimit : Nat := 0x100000000

/-- The first number that 64 bits cannot hold. -/
def longLimit : Nat := 0x10000000000000000

end Retrace
