/-!
# Gzip/Checksum — the checksum of a gzip member

The 32-bit cyclic redundancy check with bits taken from the low end: the remainder of the bytes, as
a polynomial over two elements, by a fixed polynomial.
-/

namespace FpgaRouting.Gzip

/-- The divisor, its highest coefficient left out. -/
def divisor : UInt32 := 0xEDB88320

/-- The remainder after one more bit. -/
def shiftBit (remainder : UInt32) : UInt32 :=
  if remainder &&& 1 = 1 then (remainder >>> 1) ^^^ divisor else remainder >>> 1

/-- The remainder after one more byte. -/
def shiftByte (remainder : UInt32) (byte : UInt8) : UInt32 :=
  (List.range 8).foldl (fun r _ => shiftBit r) (remainder ^^^ byte.toUInt32)

/-- **The checksum of bytes**: the remainder is taken from all ones, and inverted. -/
def checksum (bytes : List UInt8) : UInt32 :=
  bytes.foldl shiftByte 0xFFFFFFFF ^^^ 0xFFFFFFFF

example : checksum ("123456789".toUTF8.toList) = 0xCBF43926 := by decide +kernel

end FpgaRouting.Gzip
