import FpgaRouting.Word
import FpgaRouting.Text.Blank
import FpgaRouting.Text.Numeral

/-!
# Formula/Token — the spelling of a permutation formula

A permutation formula is an integer expression in two variables: `W`, the number of destination
candidates, and `t`, the position of the source among its own candidates.  `tokens` spells the text
out, skipping white space, and **reports the first offence in text order**: a character outside the
alphabet, with its offset in bytes, or a digit run that is no signed word.
-/

namespace FpgaRouting.Formula

inductive Op
  | add
  | sub
  | mul
  | div
deriving DecidableEq, Repr

/-- An operand: a literal or one of the two variables. -/
inductive Atom
  | number (value : Nat)
  | width
  | track
deriving DecidableEq, Repr

inductive Token
  | atom (a : Atom)
  | op (o : Op)
  | leftBracket
  | rightBracket
deriving DecidableEq, Repr

/-- What is wrong with a formula, or with its evaluation. -/
inductive Cause
  | empty
  | unknownCharacter (character : Char) (position : Nat)
  | invalidNumber (digits : String)
  | mismatchedBrackets
  | missingOperand
  | trailingOperand
  | divisionByZero
  | overflow
deriving DecidableEq, Repr

def Cause.message : Cause → String
  | .empty => "formula is empty"
  | .unknownCharacter c position =>
    "unsupported character '" ++ c.toString ++ "' at position " ++ toString position
  | .invalidNumber digits => "number " ++ digits ++ " does not fit an integer"
  | .mismatchedBrackets => "mismatched brackets"
  | .missingOperand => "operator is missing an operand"
  | .trailingOperand => "operand without an operator"
  | .divisionByZero => "division by zero"
  | .overflow => "integer overflow"

/-- The tokens of one character. -/
def symbol? : Char → Option Token
  | 'W' => some (.atom .width)
  | 't' => some (.atom .track)
  | '+' => some (.op .add)
  | '-' => some (.op .sub)
  | '*' => some (.op .mul)
  | '/' => some (.op .div)
  | '(' => some .leftBracket
  | ')' => some .rightBracket
  | _ => none

/-- The token of a digit run that has come to its end, none for the empty run. -/
def closeRun : List Char → Except Cause (List Token)
  | [] => .ok []
  | run =>
    match (Text.number? 10 run).filter (· < Word.half) with
    | some value => .ok [.atom (.number value)]
    | none => .error (.invalidNumber (String.ofList run))

/-- The tokens of the rest of a text, where `run` is the digit run just before it, in reverse, and
`position` the number of bytes read. -/
def tokensFrom (run : List Char) (position : Nat) : List Char → Except Cause (List Token)
  | [] => closeRun run.reverse
  | c :: cs =>
    if c.isDigit then tokensFrom (c :: run) (position + 1) cs
    else do
      let number ← closeRun run.reverse
      if Text.isBlank c then
        return number ++ (← tokensFrom [] (position + c.utf8Size) cs)
      match symbol? c with
      | none => .error (.unknownCharacter c position)
      | some token => return number ++ token :: (← tokensFrom [] (position + c.utf8Size) cs)

def tokens (text : String) : Except Cause (List Token) := tokensFrom [] 0 text.toList

end FpgaRouting.Formula
