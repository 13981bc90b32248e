import FpgaRouting.Formula.Postfix

/-!
# Formula/Basic — permutation formulas

A `Formula` keeps its text, which names it in messages, and its postfix program.  Parsing reports
the spelling first, then the brackets, then the operands; evaluation of a parsed formula can only
fail on arithmetic.  The result picks a destination by `wrap`: **floor modulo the number of
candidates**, so `-1` is the last of them.
-/

namespace FpgaRouting

/-- A permutation formula, ready to be evaluated. -/
structure Formula where
  text : String
  program : List Formula.Step
deriving DecidableEq, Repr

namespace Formula

/-- A fault of a formula, with the text it stands in. -/
structure Error where
  text : String
  cause : Cause
deriving DecidableEq, Repr

def Error.message (e : Error) : String :=
  "in formula \"" ++ e.text ++ "\": " ++ e.cause.message

/-- The program of a text. -/
def compile (text : String) : Except Cause (List Step) := do
  let ts ← tokens text
  match order [] ts with
  | none => .error .mismatchedBrackets
  | some steps =>
    arity steps
    return steps

def parse (text : String) : Except Error Formula :=
  match compile text with
  | .ok program => .ok ⟨text, program⟩
  | .error cause => .error ⟨text, cause⟩

def eval (f : Formula) (b : Binding) : Except Error Int :=
  match run b [] f.program with
  | .ok value => .ok value
  | .error cause => .error ⟨f.text, cause⟩

/-- The index among `size` candidates that a result selects, none if there are no candidates.  The
number of candidates is read with a sign, so that from `2 ^ 63` on the modulus is another one. -/
def wrap (result : Int) (size : Nat) : Except Fault (Option Nat) :=
  if size = 0 then .ok none
  else if result = -(Word.half : Int) ∧ Word.toSigned size = -1 then .error .overflow
  else .ok (some (result % Word.toSigned size).toNat |>.filter (· < size))

end Formula

end FpgaRouting
