import FpgaRouting.Gzip.Checksum
import FpgaRouting.Gzip.Inflate

/-!
# Gzip/Member — bytes in a gzip file

A member is a header, compressed blocks, and the checksum and length of the bytes in it.  Reading
takes the first member of a file; **writing stores the bytes uncompressed**, which every reader of
the format understands.
-/

namespace FpgaRouting.Gzip

/-- The first two bytes of a member. -/
def magic : List UInt8 := [0x1F, 0x8B]

def isMember (file : List UInt8) : Bool := magic.isPrefixOf file

/-- Reads a header, whose flags say which parts it has. -/
def header : Reader Unit := do
  guard ((← Bits.run 3) = magic ++ [8])
  let flags := (← Bits.byte).toNat
  let _ ← Bits.run 6
  if flags.testBit 2 then
    let _ ← Bits.run (← Bits.number 16)
  let length := (← get).length
  if flags.testBit 3 then Bits.text length
  if flags.testBit 4 then Bits.text length
  if flags.testBit 1 then
    let _ ← Bits.run 2

def member : Reader (List UInt8) := do
  header
  let bytes ← inflate
  Bits.align
  guard ((← Bits.number 32) = (checksum bytes).toNat)
  guard ((← Bits.number 32) = bytes.length % 4294967296)
  return bytes

/-- The bytes in the first member of a file. -/
def unpack? (file : List UInt8) : Option (List UInt8) := (member.run (.ofBytes file)).map (·.1)

/-- A number in so many bytes, the lowest first. -/
def littleEndian : Nat → Nat → List UInt8
  | 0, _ => []
  | width + 1, n => (n % 256).toUInt8 :: littleEndian width (n / 256)

/-- The bytes of a stored block. -/
def storedBlock (last : Bool) (bytes : List UInt8) : List UInt8 :=
  (if last then 1 else 0) :: littleEndian 2 bytes.length
    ++ littleEndian 2 (0xFFFF - bytes.length) ++ bytes

/-- Bytes as stored blocks of which each is full but the last. -/
def stored (bytes : List UInt8) : List UInt8 :=
  if _h : bytes.length ≤ 0xFFFF then storedBlock true bytes
  else storedBlock false (bytes.take 0xFFFF) ++ stored (bytes.drop 0xFFFF)
termination_by bytes.length
decreasing_by simp only [List.length_drop]; omega

/-- A file of one member that holds the bytes. -/
def pack (bytes : List UInt8) : List UInt8 :=
  magic ++ [8, 0, 0, 0, 0, 0, 0, 0xFF] ++ stored bytes
    ++ littleEndian 4 (checksum bytes).toNat ++ littleEndian 4 bytes.length

example : unpack? (pack "switchblock".toUTF8.toList) = some "switchblock".toUTF8.toList := by
  decide +kernel

end FpgaRouting.Gzip
