/-!
# Gzip/Bits — reading a byte string bit by bit

Bits are taken from the low end of each byte, and the first bit of a number is its lowest.
-/

namespace FpgaRouting.Gzip

/-- The bytes still to be read, and the bits of the byte that has been begun. -/
structure Bits where
  begun : List Bool
  bytes : List UInt8
deriving DecidableEq, Repr

/-- Reading takes from the front and fails at the end. -/
abbrev Reader := StateT Bits Option

namespace Bits

def ofBytes (bytes : List UInt8) : Bits := ⟨[], bytes⟩

/-- How many bits are left. -/
def length (b : Bits) : Nat := b.begun.length + 8 * b.bytes.length

/-- The bits of a byte from the low end. -/
def ofByte (byte : UInt8) : List Bool := (List.range 8).map byte.toNat.testBit

def bit : Reader Bool := fun b =>
  match b.begun, b.bytes with
  | first :: rest, bytes => some (first, ⟨rest, bytes⟩)
  | [], byte :: bytes => some (byte.toNat.testBit 0, ⟨(ofByte byte).drop 1, bytes⟩)
  | [], [] => none

/-- A number of a given width in bits. -/
def number : Nat → Reader Nat
  | 0 => return 0
  | width + 1 => do
    let low ← bit
    let high ← number width
    return 2 * high + low.toNat

/-- Drops what is left of the byte that has been begun. -/
def align : Reader Unit := modify fun b => { b with begun := [] }

/-- A byte, once the reader is aligned. -/
def byte : Reader UInt8 := do return (← number 8).toUInt8

/-- So many bytes. -/
def run (count : Nat) : Reader (List UInt8) := (List.range count).mapM fun _ => byte

/-- Bytes up to a zero byte, of which so many are looked at. -/
def text : Nat → Reader Unit
  | 0 => failure
  | fuel + 1 => do
    if (← byte) = 0 then return
    text fuel

end Bits

end FpgaRouting.Gzip
