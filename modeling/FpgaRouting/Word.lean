/-!
# Word — 64-bit arithmetic that may have no answer

Coordinates, counts and wire lengths are unsigned words; formula values and the geometry of wires
that hang over a device edge are signed ones.  Both are kept as the integers they denote, so the
only trace of the word is in the operations here: **each returns the exact result or, when that
does not fit, a `Fault`**.  Reading the same 64 bits with or without a sign never fails.
-/

namespace FpgaRouting

/-- Why a step of word arithmetic or an indexing step has no answer. -/
inductive Fault
  | overflow
  | zeroDivisor
  | outOfRange
deriving DecidableEq, Repr

def Fault.message : Fault → String
  | overflow => "a number does not fit"
  | zeroDivisor => "a division by zero"
  | outOfRange => "an index out of range"

namespace Word

/-- The number of unsigned words, `2 ^ 64`. -/
def count : Nat := 18446744073709551616

/-- The number of non-negative signed words, `2 ^ 63`. -/
def half : Nat := 9223372036854775808

/-- A natural number as an unsigned word, if it is one. -/
def check (n : Nat) : Except Fault Nat :=
  if n < count then .ok n else .error .overflow

def add (a b : Nat) : Except Fault Nat := check (a + b)

def mul (a b : Nat) : Except Fault Nat := check (a * b)

/-- Subtraction stays among the naturals: **a larger subtrahend is a fault, never zero**. -/
def sub (a b : Nat) : Except Fault Nat :=
  if b ≤ a then .ok (a - b) else .error .overflow

def mod (a b : Nat) : Except Fault Nat :=
  if b = 0 then .error .zeroDivisor else .ok (a % b)

/-- The sum of a list, added from the left. -/
def sum (ns : List Nat) : Except Fault Nat := ns.foldlM add 0

/-- The least common multiple, `0` if either number is. -/
def lcm (a b : Nat) : Except Fault Nat :=
  if a = 0 ∨ b = 0 then .ok 0 else mul (a / Nat.gcd a b) b

/-! ## Signed words -/

/-- The integer that the 64 bits of an unsigned word denote when read with a sign. -/
def toSigned (n : Nat) : Int :=
  if n < half then n else (n : Int) - count

/-- The unsigned word with the 64 bits of a signed one. -/
def ofSigned (i : Int) : Nat := (i % count).toNat

/-- An integer that is a signed word. -/
def Signed (i : Int) : Prop := -(half : Int) ≤ i ∧ i < half

instance (i : Int) : Decidable (Signed i) := inferInstanceAs (Decidable (_ ∧ _))

def checkSigned (i : Int) : Except Fault Int :=
  if Signed i then .ok i else .error .overflow

def addSigned (a b : Int) : Except Fault Int := checkSigned (a + b)

def subSigned (a b : Int) : Except Fault Int := checkSigned (a - b)

/-- The remainder that has the sign of the dividend.  It overflows exactly where the quotient
does. -/
def remSigned (a b : Int) : Except Fault Int :=
  if b = 0 then .error .zeroDivisor
  else if a = -(half : Int) ∧ b = -1 then .error .overflow
  else .ok (a.tmod b)

/-! ## Small lemmas -/

theorem check_of_lt {n : Nat} (h : n < count) : check n = .ok n := if_pos h

theorem check_eq_ok_iff {n m : Nat} : check n = .ok m ↔ n < count ∧ n = m := by
  unfold check
  split <;> rename_i h <;> simp [h]

theorem sub_of_le {a b : Nat} (h : b ≤ a) : sub a b = .ok (a - b) := if_pos h

theorem mod_of_ne_zero {a b : Nat} (h : b ≠ 0) : mod a b = .ok (a % b) := if_neg h

theorem toSigned_of_lt {n : Nat} (h : n < half) : toSigned n = n := if_pos h

theorem checkSigned_of_signed {i : Int} (h : Signed i) : checkSigned i = .ok i := if_pos h

end Word

end FpgaRouting
