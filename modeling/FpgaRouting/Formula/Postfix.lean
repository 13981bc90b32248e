import FpgaRouting.Formula.Token

/-!
# Formula/Postfix — a formula in evaluation order

A token list is put into postfix order once: operands keep their order, and an operator is held
back until the operators that bind tighter have been applied.  `order` fails exactly on brackets
that do not match; `arity` then counts operands, so that **a program it accepts never runs short
of one** when `run` evaluates it on a stack.
-/

namespace FpgaRouting.Formula

/-- One step of a postfix program. -/
inductive Step
  | push (a : Atom)
  | apply (o : Op)
deriving DecidableEq, Repr

/-- What waits while the tokens are put in order: an operator that lacks its right operand, or an
open bracket. -/
inductive Held
  | op (o : Op)
  | bracket
deriving DecidableEq, Repr

/-- A higher number binds tighter. -/
def Op.precedence : Op → Nat
  | .add | .sub => 2
  | .mul | .div => 3

/-! ## Ordering -/

/-- The held operators that are applied before `o` comes in, and what stays held.  All operators
associate to the left, so **one of the same precedence goes first**. -/
def releaseFor (o : Op) : List Held → List Step × List Held
  | .op top :: held =>
    if o.precedence ≤ top.precedence then
      let (steps, rest) := releaseFor o held
      (.apply top :: steps, rest)
    else ([], .op top :: held)
  | held => ([], held)

/-- The held operators up to the open bracket that a closing one meets. -/
def releaseBracket : List Held → Option (List Step × List Held)
  | [] => none
  | .bracket :: held => some ([], held)
  | .op o :: held => (releaseBracket held).map fun (steps, rest) => (.apply o :: steps, rest)

/-- The operators held at the end of the tokens.  No bracket may be open then. -/
def releaseAll : List Held → Option (List Step)
  | [] => some []
  | .bracket :: _ => none
  | .op o :: held => (releaseAll held).map (.apply o :: ·)

/-- The tokens in postfix order, none if a bracket has no partner. -/
def order (held : List Held) : List Token → Option (List Step)
  | [] => releaseAll held
  | .atom a :: ts => (order held ts).map (.push a :: ·)
  | .op o :: ts =>
    let (steps, rest) := releaseFor o held
    (order (.op o :: rest) ts).map (steps ++ ·)
  | .leftBracket :: ts => order (.bracket :: held) ts
  | .rightBracket :: ts => do
    let (steps, rest) ← releaseBracket held
    (order rest ts).map (steps ++ ·)

/-! ## Arity -/

/-- The number of operands on the stack after a program that starts with `depth` of them. -/
def depthAfter (depth : Nat) : List Step → Except Cause Nat
  | [] => .ok depth
  | .push _ :: steps => depthAfter (depth + 1) steps
  | .apply _ :: steps =>
    if depth < 2 then .error .missingOperand else depthAfter (depth - 1) steps

/-- A program must leave exactly one operand. -/
def arity (steps : List Step) : Except Cause Unit := do
  match ← depthAfter 0 steps with
  | 0 => .error .empty
  | 1 => .ok ()
  | _ => .error .trailingOperand

/-! ## Evaluation -/

/-- The values of the variables `W` and `t`. -/
structure Binding where
  width : Int
  track : Int
deriving DecidableEq, Repr

def Atom.value (b : Binding) : Atom → Int
  | .number n => n
  | .width => b.width
  | .track => b.track

/-- A result that must be a signed word. -/
def checkResult (i : Int) : Except Cause Int :=
  if Word.Signed i then .ok i else .error .overflow

/-- The value of an operator.  **Division goes toward zero.** -/
def Op.apply (left right : Int) : Op → Except Cause Int
  | .add => checkResult (left + right)
  | .sub => checkResult (left - right)
  | .mul => checkResult (left * right)
  | .div => if right = 0 then .error .divisionByZero else checkResult (left.tdiv right)

/-- The value a program leaves when it starts with the operands of `stack`, latest first. -/
def run (b : Binding) : List Int → List Step → Except Cause Int
  | [], [] => .error .empty
  | [value], [] => .ok value
  | _ :: _ :: _, [] => .error .trailingOperand
  | stack, .push a :: steps => run b (a.value b :: stack) steps
  | right :: left :: stack, .apply o :: steps => do
    run b ((← o.apply left right) :: stack) steps
  | _, .apply _ :: _ => .error .missingOperand

end FpgaRouting.Formula
