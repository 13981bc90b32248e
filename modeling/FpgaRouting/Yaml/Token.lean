import FpgaRouting.Yaml.Scalar

/-!
# Yaml/Token — the tokens of a YAML text

Brackets and the marks `-`, `?`, `:` and `,` are tokens, and so is every step of the indentation: a
collection that is laid out in lines starts where a mark stands further to the right than the
collection around it, and ends at the first token further to the left.

**A key is known only by the colon after it.**  What may be a key is therefore remembered as a
`Candidate`, and the tokens that announce it are put in front of it once the colon is read.  A
candidate must be on the line of its colon and at most 1024 bytes before it.

Anchors, aliases, tags and block scalars are not read; a text with one of them is refused.
-/

namespace FpgaRouting.Yaml

inductive Token
  | version (major minor : Nat)
  | documentStart
  | documentEnd
  | blockSequenceStart
  | blockMappingStart
  | blockEnd
  | flowSequenceStart
  | flowSequenceEnd
  | flowMappingStart
  | flowMappingEnd
  | blockEntry
  | flowEntry
  | key
  | value
  | scalar (text : String) (plain : Bool)
deriving DecidableEq, Repr

/-- What may turn out to be a key. -/
structure Candidate where
  /-- The number of tokens before it. -/
  position : Nat
  index : Nat
  line : Nat
  column : Nat
  /-- Whether nothing but a key can stand here. -/
  isRequired : Bool
deriving Repr

/-- A text that has been read up to a place. -/
structure Scan where
  cursor : Cursor
  tokens : Array Token := #[]
  /-- The columns of the open block collections, innermost first. -/
  indents : List Nat := []
  /-- Whether a key may start here. -/
  keyAllowed : Bool := true
  /-- The candidate of each open bracket, innermost first, and of the text outside. -/
  candidates : List (Option Candidate) := [none]
deriving Repr

namespace Scan

/-- Whether the place is inside brackets. -/
def inFlow (s : Scan) : Bool := 1 < s.candidates.length

/-- Whether a column is to the right of the innermost block collection. -/
def isDeeper (s : Scan) (column : Nat) : Bool := s.indents.head?.all (· < column)

def emit (s : Scan) (t : Token) : Scan := { s with tokens := s.tokens.push t }

/-- The scan after a token of some characters. -/
def take (s : Scan) (t : Token) (length : Nat := 1) : Scan :=
  { s.emit t with cursor := s.cursor.advance length }

/-- Puts a token behind the first `position` ones. -/
def insert (s : Scan) (position : Nat) (t : Token) : Scan :=
  { s with tokens := s.tokens.insertIdxIfInBounds position t }

/-- Starts a block collection at a column, unless one is open there; `position` is where its token
goes. -/
def indent (s : Scan) (column position : Nat) (t : Token) : Scan :=
  if !s.inFlow && s.isDeeper column then
    { s.insert position t with indents := column :: s.indents }
  else s

/-- Ends the block collections to the right of a column, all of them for `none`. -/
def dedent (s : Scan) (column : Option Nat) : Scan :=
  if s.inFlow then s
  else
    let ended := s.indents.takeWhile fun i => column.all (· < i)
    { s with
      tokens := s.tokens ++ Array.replicate ended.length .blockEnd
      indents := s.indents.drop ended.length }

/-! ## Candidates for keys -/

/-- Drops the candidate of the innermost bracket, which must not be required. -/
def dropCandidate (s : Scan) : Option Scan :=
  match s.candidates with
  | [] => some s
  | candidate :: outer =>
    if candidate.any (·.isRequired) then none else some { s with candidates := none :: outer }

/-- Remembers the place as a candidate, if a key may start here. -/
def saveCandidate (s : Scan) : Option Scan := do
  if !s.keyAllowed then return s
  let s ← s.dropCandidate
  let c := s.cursor
  let candidate : Candidate := {
    position := s.tokens.size
    index := c.index
    line := c.line
    column := c.column
    isRequired := !s.inFlow && s.indents.head? = some c.column }
  return { s with candidates := some candidate :: s.candidates.drop 1 }

/-- Drops the candidates whose colon can no longer come. -/
def dropStale (s : Scan) : Option Scan := do
  let candidates ← s.candidates.mapM fun candidate =>
    match candidate with
    | none => some none
    | some k =>
      if k.line < s.cursor.line || k.index + 1024 < s.cursor.index then
        if k.isRequired then none else some none
      else some (some k)
  return { s with candidates }

/-! ## Reading one token -/

/-- Skips byte order marks, white space, comments and line breaks.  After a break outside brackets
a key may start, and **a tab must not stand where one may**. -/
def skipSpace : (fuel : Nat) → Scan → Scan
  | 0, s => s
  | fuel + 1, s =>
    let isSkipped := fun x => x = ' ' || (x = '\t' && (s.inFlow || !s.keyAllowed))
    let c := s.cursor.skipMark.skip isSkipped
    let c := if c.peek? 0 = some '#' then c.skip (!isBreak ·) else c
    match c.peek? 0 with
    | some x =>
      if isBreak x then
        skipSpace fuel { s with cursor := c.next, keyAllowed := s.keyAllowed || !s.inFlow }
      else { s with cursor := c }
    | none => { s with cursor := c }

/-- A digit run of at most nine digits. -/
def versionNumber? (cs : List Char) : Option (Nat × List Char) := do
  let digits := cs.takeWhile Char.isDigit
  if 9 < digits.length then none
  return (← Text.number? 10 digits, cs.drop digits.length)

/-- A line that names the version of the format, with its break, after which no key may start.  No
other directive is read. -/
def directive (s : Scan) : Option Scan := do
  let s ← (s.dedent none).dropCandidate
  let body := s.cursor.rest.takeWhile (!isBreak ·)
  if body.take 5 ≠ ['%', 'Y', 'A', 'M', 'L'] ∨ !(body[5]?.any isGap) then none
  let (major, rest) ← versionNumber? ((body.drop 5).dropWhile isGap)
  if rest.head? ≠ some '.' then none
  let (minor, rest) ← versionNumber? (rest.drop 1)
  let tail := rest.dropWhile isGap
  if tail.head?.any (· ≠ '#') then none
  return { s.take (.version major minor) (body.length + 1) with keyAllowed := false }

/-- A line that starts or ends a document. -/
def marker (s : Scan) (t : Token) : Option Scan := do
  let s ← (s.dedent none).dropCandidate
  return { s.take t 3 with keyAllowed := false }

def openBracket (s : Scan) (t : Token) : Option Scan := do
  let s ← s.saveCandidate
  return { s.take t with candidates := none :: s.candidates, keyAllowed := true }

def closeBracket (s : Scan) (t : Token) : Option Scan := do
  let s ← s.dropCandidate
  let candidates := if s.inFlow then s.candidates.drop 1 else s.candidates
  return { s.take t with candidates, keyAllowed := false }

def comma (s : Scan) : Option Scan := do
  let s ← s.dropCandidate
  return { s.take .flowEntry with keyAllowed := true }

def dash (s : Scan) : Option Scan := do
  if !s.inFlow && !s.keyAllowed then none
  let s ← (s.indent s.cursor.column s.tokens.size .blockSequenceStart).dropCandidate
  return { s.take .blockEntry with keyAllowed := true }

def questionMark (s : Scan) : Option Scan := do
  if !s.inFlow && !s.keyAllowed then none
  let s ← (s.indent s.cursor.column s.tokens.size .blockMappingStart).dropCandidate
  return { s.take .key with keyAllowed := !s.inFlow }

def colon (s : Scan) : Option Scan :=
  match s.candidates with
  | some k :: outer =>
    let s := (s.insert k.position .key).indent k.column k.position .blockMappingStart
    some { s.take .value with candidates := none :: outer, keyAllowed := false }
  | _ =>
    if !s.inFlow && !s.keyAllowed then none
    else
      let s := s.indent s.cursor.column s.tokens.size .blockMappingStart
      some { s.take .value with keyAllowed := !s.inFlow }

def quoted (s : Scan) (fuel : Nat) (double : Bool) : Option Scan := do
  let s ← s.saveCandidate
  let (text, c) ← readQuoted double fuel s.cursor.next []
  return { s.emit (.scalar (String.ofList text) false) with cursor := c, keyAllowed := false }

/-- A plain scalar.  If a line break was read after it, a key may start again. -/
def plain (s : Scan) (fuel : Nat) : Option Scan := do
  let s ← s.saveCandidate
  let indent := (s.indents.head?.map (· + 1)).getD 0
  let (text, keyAllowed, c) ← readPlain s.inFlow indent fuel s.cursor [] {}
  return { s.emit (.scalar (String.ofList text.reverse) true) with cursor := c, keyAllowed }

/-- Reads one token where there is text left. -/
def token (s : Scan) (fuel : Nat) (x : Char) : Option Scan :=
  let c := s.cursor
  let after := c.peek? 1
  if c.column = 0 ∧ x = '%' then s.directive
  else if c.atMarker then s.marker (if x = '-' then .documentStart else .documentEnd)
  else if x = '[' then s.openBracket .flowSequenceStart
  else if x = '\x7b' then s.openBracket .flowMappingStart
  else if x = ']' then s.closeBracket .flowSequenceEnd
  else if x = '\x7d' then s.closeBracket .flowMappingEnd
  else if x = ',' then s.comma
  else if x = '-' ∧ endsToken after then s.dash
  else if x = '?' ∧ (s.inFlow ∨ endsToken after) then s.questionMark
  else if x = ':' ∧ (s.inFlow ∨ endsToken after) then s.colon
  else if x = '\'' then s.quoted fuel false
  else if x = '"' then s.quoted fuel true
  else if startsPlain s.inFlow c then s.plain fuel
  else none

/-- Reads the rest of the tokens.  **Each takes at least one character**, so that `fuel` stays above
the number of characters that are left. -/
def run : (fuel : Nat) → Scan → Option Scan
  | 0, _ => none
  | fuel + 1, s => do
    let s ← (skipSpace (fuel + 1) s).dropStale
    match s.cursor.rest with
    | [] => (s.dedent none).dropCandidate
    | x :: _ => run fuel (← (s.dedent (some s.cursor.column)).token (fuel + 1) x)

end Scan

/-- The tokens of a text. -/
def tokens? (text : String) : Option (List Token) := do
  let cs := text.toList
  if !cs.all isPrintable then none
  let s ← Scan.run (cs.length + 1) { cursor := ⟨unifyBreaks cs, 0, 0, 0⟩ }
  return s.tokens.toList

end FpgaRouting.Yaml
