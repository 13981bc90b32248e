import FpgaRouting.Gzip.Bits

/-!
# Gzip/Inflate — expanding compressed blocks

A block is stored as it is or coded: a symbol stands for a byte, for the end of the block, or for a
copy of bytes that came shortly before.  **Symbols have canonical prefix codes**, so that a code is
given by the length of each symbol's code word alone: shorter words come first, and words of one
length in the order of their symbols.
-/

namespace FpgaRouting.Gzip

/-! ## Prefix codes -/

/-- A canonical code: for each length from `1` on, the symbols with a code word of that length. -/
abbrev Code := List (Array Nat)

namespace Code

def maxLength : Nat := 15

/-- The code of symbols by the lengths of their words; a symbol of length `0` has none. -/
def ofLengths (lengths : List Nat) : Code :=
  (List.range' 1 maxLength).map fun length =>
    (lengths.zipIdx.filterMap fun (l, symbol) => if l = length then some symbol else none).toArray

/-- Whether bit strings remain for all words, `space` of them one bit shorter than the first. -/
def fitsIn (space : Nat) : Code → Bool
  | [] => true
  | symbols :: rest => symbols.size ≤ 2 * space && fitsIn (2 * space - symbols.size) rest

/-- Whether there are bit strings for all words. -/
def fits (c : Code) : Bool := c.fitsIn 1

/-- Reads a word, of which the bits read so far are `word`; the first word of this length is
`first`. -/
def symbolFrom (word first : Nat) : Code → Reader Nat
  | [] => failure
  | symbols :: rest => do
    let word := 2 * word + (← Bits.bit).toNat
    let first := 2 * first
    if h : word - first < symbols.size then return symbols[word - first]
    else symbolFrom word (first + symbols.size) rest

def symbol (c : Code) : Reader Nat := symbolFrom 0 0 c

end Code

/-! ## Copies -/

/-- The least value of a symbol, and the width of the number that is added to it. -/
structure Range where
  least : Nat
  extra : Nat
deriving DecidableEq, Repr

namespace Range

def read (r : Range) : Reader Nat := do return r.least + (← Bits.number r.extra)

/-- Ranges that follow on each other. -/
def sequence (least : Nat) : List Nat → List Range
  | [] => []
  | extra :: rest => ⟨least, extra⟩ :: sequence (least + 2 ^ extra) rest

/-- The lengths of copies, from the symbol `257` on. -/
def lengths : List Range :=
  sequence 3 [0, 0, 0, 0, 0, 0, 0, 0, 1, 1, 1, 1, 2, 2, 2, 2, 3, 3, 3, 3, 4, 4, 4, 4, 5, 5, 5, 5]
    |>.set 27 ⟨227, 5⟩ |>.concat ⟨258, 0⟩

/-- The distances back to the bytes that are copied. -/
def distances : List Range :=
  sequence 1 [0, 0, 0, 0, 1, 1, 2, 2, 3, 3, 4, 4, 5, 5, 6, 6, 7, 7, 8, 8, 9, 9, 10, 10, 11, 11,
    12, 12, 13, 13]

example : lengths[28]? = some ⟨258, 0⟩ ∧ distances[29]? = some ⟨24577, 13⟩ := by decide

end Range

/-- Appends a copy of bytes from a distance back; the copy may reach into itself. -/
def copy (distance : Nat) (out : Array UInt8) : Nat → Option (Array UInt8)
  | 0 => some out
  | length + 1 => do
    guard (0 < distance ∧ distance ≤ out.size)
    copy distance (out.push (← out[out.size - distance]?)) length

/-! ## Blocks -/

/-- Expands the symbols of a block; `fuel` bounds their number. -/
def expandSymbols (literals distances : Code) : Nat → Array UInt8 → Reader (Array UInt8)
  | 0, _ => failure
  | fuel + 1, out => do
    let symbol ← literals.symbol
    if symbol < 256 then expandSymbols literals distances fuel (out.push symbol.toUInt8)
    else if symbol = 256 then return out
    else
      let length ← (← Range.lengths[symbol - 257]?).read
      let distance ← (← Range.distances[← distances.symbol]?).read
      expandSymbols literals distances fuel (← copy distance out length)

/-- The codes of a block that brings none. -/
def fixedCodes : Code × Code :=
  (.ofLengths (List.replicate 144 8 ++ List.replicate 112 9 ++ List.replicate 24 7
    ++ List.replicate 8 8), .ofLengths (List.replicate 30 5))

/-- The order in which the lengths of the code for lengths are given. -/
def lengthOrder : List Nat := [16, 17, 18, 0, 8, 7, 9, 6, 10, 5, 11, 4, 12, 3, 13, 2, 14, 1, 15]

/-- Reads code lengths until there are `count`; each step gives at least one. -/
def readLengths (c : Code) (count : Nat) : Nat → List Nat → Reader (List Nat)
  | 0, _ => failure
  | fuel + 1, lengths => do
    if count ≤ lengths.length then
      guard (lengths.length = count)
      return lengths
    match ← c.symbol with
    | 16 => do
      let last ← lengths.getLast?
      let n ← Range.read ⟨3, 2⟩
      readLengths c count fuel (lengths ++ List.replicate n last)
    | 17 => do
      let n ← Range.read ⟨3, 3⟩
      readLengths c count fuel (lengths ++ List.replicate n 0)
    | 18 => do
      let n ← Range.read ⟨11, 7⟩
      readLengths c count fuel (lengths ++ List.replicate n 0)
    | length => readLengths c count fuel (lengths ++ [length])

/-- The codes that a block brings. -/
def ownCodes : Reader (Code × Code) := do
  let literals ← Range.read ⟨257, 5⟩
  let distances ← Range.read ⟨1, 5⟩
  let given ← Range.read ⟨4, 4⟩
  let lengths ← (List.range given).mapM fun _ => Bits.number 3
  let ofSymbol (s : Nat) : Nat := ((lengthOrder.zip lengths).lookup s).getD 0
  let c := Code.ofLengths ((List.range 19).map ofSymbol)
  let all ← readLengths c (literals + distances) (literals + distances + 1) []
  let codes := (Code.ofLengths (all.take literals), Code.ofLengths (all.drop literals))
  guard (c.fits && codes.1.fits && codes.2.fits)
  return codes

/-- Expands blocks until the last; `fuel` bounds the number of symbols. -/
def expandBlocks (fuel : Nat) : Nat → Array UInt8 → Reader (Array UInt8)
  | 0, _ => failure
  | blocks + 1, out => do
    let last ← Bits.bit
    let out ← match ← Bits.number 2 with
      | 0 => do
        Bits.align
        let length ← Bits.number 16
        guard (length + (← Bits.number 16) = 0xFFFF)
        let bytes ← Bits.run length
        pure (out ++ bytes)
      | 1 => expandSymbols fixedCodes.1 fixedCodes.2 fuel out
      | 2 => do
        let codes ← ownCodes
        expandSymbols codes.1 codes.2 fuel out
      | _ => failure
    if last then return out
    expandBlocks fuel blocks out

/-- Expands compressed bytes.  **Each block and each symbol takes at least one bit**, so their
number is bounded by that of the bits. -/
def inflate : Reader (List UInt8) := do
  let fuel := (← get).length
  return (← expandBlocks fuel fuel #[]).toList

end FpgaRouting.Gzip
