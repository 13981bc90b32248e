import FpgaRouting.Word

/-!
# Text/Numeral — numbers in positional notation

A digit list is read most significant digit first.  `word?` is the plain decimal form of an
unsigned word that the command line and the environment use: digits, with an optional plus sign.
-/

namespace FpgaRouting.Text

/-- The value of a digit in a base of at most 16. -/
def digit? (base : Nat) (c : Char) : Option Nat :=
  let value? :=
    if '0' ≤ c ∧ c ≤ '9' then some (c.toNat - '0'.toNat)
    else if 'a' ≤ c ∧ c ≤ 'f' then some (c.toNat - 'a'.toNat + 10)
    else if 'A' ≤ c ∧ c ≤ 'F' then some (c.toNat - 'A'.toNat + 10)
    else none
  value?.filter (· < base)

/-- The number that digits denote, if all are digits of the base and there is at least one. -/
def number? (base : Nat) : List Char → Option Nat
  | [] => none
  | cs => cs.foldlM (fun value c => (digit? base c).map (base * value + ·)) 0

/-- The unsigned word that digits denote. -/
def wordIn? (base : Nat) (cs : List Char) : Option Nat :=
  (number? base cs).filter (· < Word.count)

/-- **A decimal word**: an optional plus sign, then digits, with a value below `2 ^ 64`. -/
def word? : List Char → Option Nat
  | '+' :: cs => wordIn? 10 cs
  | cs => wordIn? 10 cs

end FpgaRouting.Text
