import FpgaRouting.Text.Numeral
import FpgaRouting.Yaml.Cursor

/-!
# Yaml/Scalar — the text of a scalar

A scalar is plain or stands between single or double quotes, and may run over several lines.  **A
single line break inside it counts as one blank, and each further one as a line feed**; the blanks
around breaks do not count.
-/

namespace FpgaRouting.Yaml

/-- White space inside a scalar: the blanks of the first line, and the breaks, both in reverse. -/
structure Gap where
  blanks : List Char := []
  breaks : List Char := []
deriving Repr

/-- The text that a gap stands for. -/
def Gap.fold (g : Gap) : List Char :=
  match g.breaks.reverse with
  | [] => g.blanks.reverse
  | ['\n'] => [' ']
  | '\n' :: more => more
  | breaks => breaks

/-- Reads a gap.  In a plain scalar, whose lines start at column `indent`, a tab must not stand
before that column. -/
def readGap (indent : Nat) (c : Cursor) (g : Gap) : Option (Gap × Cursor) :=
  match _h : c.rest with
  | [] => some (g, c)
  | x :: _ =>
    if isBreak x then readGap indent c.next { g with breaks := x :: g.breaks }
    else if isGap x then
      if g.breaks.isEmpty then readGap indent c.next { g with blanks := x :: g.blanks }
      else if x = '\t' ∧ c.column < indent then none
      else readGap indent c.next g
    else some (g, c)
termination_by c.rest.length
decreasing_by all_goals exact Cursor.length_next ‹_›

/-! ## Quoted scalars -/

/-- The character that a letter stands for after a backslash. -/
def escaped? : Char → Option Char
  | '0' => some '\x00'
  | 'a' => some '\x07'
  | 'b' => some '\x08'
  | 't' | '\t' => some '\t'
  | 'n' => some '\n'
  | 'v' => some '\x0b'
  | 'f' => some '\x0c'
  | 'r' => some '\r'
  | 'e' => some '\x1b'
  | ' ' => some ' '
  | '"' => some '"'
  | '/' => some '/'
  | '\\' => some '\\'
  | 'N' => some '\u0085'
  | '_' => some '\u00a0'
  | 'L' => some '\u2028'
  | 'P' => some '\u2029'
  | _ => none

/-- The number of hexadecimal digits that follow a letter after a backslash. -/
def escapeDigits? : Char → Option Nat
  | 'x' => some 2
  | 'u' => some 4
  | 'U' => some 8
  | _ => none

/-- The character of hexadecimal digits. -/
def codePoint? (digits : List Char) : Option Char := do
  let n ← Text.number? 16 digits
  if n.isValidChar then some (Char.ofNat n) else none

/-- The character written after a backslash, and the length of its spelling. -/
def escape? (cs : List Char) : Option (Char × Nat) := do
  let x ← cs.head?
  match escapeDigits? x with
  | some n =>
    let digits := (cs.drop 1).take n
    if digits.length < n then none
    return (← codePoint? digits, n + 1)
  | none => return (← escaped? x, 1)

/-- Reads the rest of a quoted scalar.  The text read so far is in reverse. -/
def readQuoted (double : Bool) : (fuel : Nat) → Cursor → List Char → Option (List Char × Cursor)
  | 0, _, _ => none
  | fuel + 1, c, text =>
    if c.atMarker then none
    else
      match c.rest with
      | [] => none
      | x :: xs =>
        if isSpace x then do
          let (gap, c) ← readGap 0 c {}
          readQuoted double fuel c (gap.fold.reverse ++ text)
        else if double then
          if x = '"' then some (text.reverse, c.next)
          else if x = '\\' then
            if xs.head?.any isBreak then do
              -- The break is taken back, and so is what it would be folded to.
              let (gap, c) ← readGap 0 c.next {}
              readQuoted double fuel c (gap.breaks.dropLast ++ text)
            else do
              let (y, n) ← escape? xs
              readQuoted double fuel (c.advance (n + 1)) (y :: text)
          else readQuoted double fuel c.next (x :: text)
        else if x = '\'' then
          if xs.head? = some '\'' then readQuoted double fuel (c.advance 2) ('\'' :: text)
          else some (text.reverse, c.next)
        else readQuoted double fuel c.next (x :: text)

/-! ## Plain scalars -/

/-- Whether a character starts something else than a plain scalar, in and out of brackets. -/
def isReserved (x : Char) : Bool :=
  List.contains ['#', '&', '*', '!', '|', '>', '\'', '"', '%', '@', '\x60'] x

/-- Whether a plain scalar may start here. -/
def startsPlain (inFlow : Bool) (c : Cursor) : Bool :=
  match c.rest with
  | [] => false
  | x :: xs =>
    let after := xs.head?
    if isSpace x then false
    else if x = '-' then !after.any isGap
    else if x = '?' || x = ':' then !inFlow && !endsToken after
    else !isFlowIndicator x && !isReserved x

/-- How a plain scalar goes on at a character: `none` if the character cannot stand there, else
whether it belongs to the scalar. -/
def continuesPlain (inFlow : Bool) (x : Char) (after : Option Char) : Option Bool :=
  if inFlow && x = ':' && after.any (fun y => y = '?' || isFlowIndicator y) then none
  else if x = ':' && endsToken after then some false
  else some !(inFlow && isFlowIndicator x)

/-- Reads the rest of a plain scalar whose further lines start at column `indent`.  `gap` is the
white space just read, which counts only if more text follows.  The result is the text, in reverse
as it is read, and whether a line break was read last. -/
def readPlain (inFlow : Bool) (indent : Nat) :
    (fuel : Nat) → Cursor → List Char → Gap → Option (List Char × Bool × Cursor)
  | 0, _, _, _ => none
  | fuel + 1, c, text, gap =>
    let atGap := !gap.blanks.isEmpty || !gap.breaks.isEmpty
    let done := some (text, !gap.breaks.isEmpty, c)
    if c.atMarker then done
    else
      match c.rest with
      | [] => done
      | x :: xs =>
        if isSpace x then do
          let (gap, c) ← readGap indent c {}
          if !inFlow && c.column < indent then
            some (text, !gap.breaks.isEmpty, c)
          else readPlain inFlow indent fuel c text gap
        else if x = '#' && atGap then done
        else do
          if ← continuesPlain inFlow x xs.head? then
            readPlain inFlow indent fuel c.next (x :: gap.fold.reverse ++ text) {}
          else done

end FpgaRouting.Yaml
