/-!
# Yaml/Cursor — a place in a YAML text

The characters that YAML tells apart, and a cursor that counts bytes, lines and columns.  Before a text is
read its line breaks are unified: **a carriage return, alone or with a line feed, and the next-line
character become a line feed**, while the separators of lines and paragraphs stay what they are.  A
byte order mark may start any line, and takes a column there.
-/

namespace FpgaRouting.Yaml

/-- A character that may stand in a text. -/
def isPrintable (c : Char) : Bool :=
  let n := c.toNat
  n = 0x09 || n = 0x0A || n = 0x0D || (0x20 ≤ n && n ≤ 0x7E) || n = 0x85
    || (0xA0 ≤ n && n ≤ 0xD7FF) || (0xE000 ≤ n && n ≤ 0xFFFD) || 0x10000 ≤ n

def unifyBreaks : List Char → List Char
  | '\r' :: '\n' :: cs => '\n' :: unifyBreaks cs
  | '\r' :: cs => '\n' :: unifyBreaks cs
  | '\u0085' :: cs => '\n' :: unifyBreaks cs
  | c :: cs => c :: unifyBreaks cs
  | [] => []

/-- A line break, once breaks are unified. -/
def isBreak (c : Char) : Bool := c = '\n' || c = '\u2028' || c = '\u2029'

/-- A blank in a line. -/
def isGap (c : Char) : Bool := c = ' ' || c = '\t'

def isSpace (c : Char) : Bool := isGap c || isBreak c

/-- Whether a token may end before the next character. -/
def endsToken : Option Char → Bool
  | none => true
  | some c => isSpace c

/-- A character with a meaning of its own inside brackets. -/
def isFlowIndicator (c : Char) : Bool :=
  c = ',' || c = '[' || c = ']' || c = '\x7b' || c = '\x7d'

/-- The rest of a text, and where it starts. -/
structure Cursor where
  rest : List Char
  /-- The number of bytes on the way here. -/
  index : Nat := 0
  line : Nat := 0
  column : Nat := 0
deriving Repr

namespace Cursor

def peek? (c : Cursor) (n : Nat) : Option Char := c.rest[n]?

/-- The cursor after the next character. -/
def next (c : Cursor) : Cursor :=
  match c.rest with
  | [] => c
  | x :: xs =>
    if isBreak x then ⟨xs, c.index + x.utf8Size, c.line + 1, 0⟩
    else ⟨xs, c.index + x.utf8Size, c.line, c.column + 1⟩

/-- The cursor after a number of characters. -/
def advance (c : Cursor) : Nat → Cursor
  | 0 => c
  | n + 1 => c.next.advance n

/-- The cursor after all characters of a kind. -/
def skip (p : Char → Bool) (c : Cursor) : Cursor := c.advance (c.rest.takeWhile p).length

/-- **Each step shortens the rest.** -/
theorem length_next {c : Cursor} {x : Char} {xs : List Char} (h : c.rest = x :: xs) :
    c.next.rest.length < c.rest.length := by
  cases c
  subst h
  simp only [next]
  split <;> simp

/-- The cursor after a byte order mark that starts a line.  A second one is text. -/
def skipMark (c : Cursor) : Cursor :=
  if c.column = 0 ∧ c.peek? 0 = some '\ufeff' then c.next else c

/-- Whether a line starts here with three characters that begin or end a document. -/
def atMarker (c : Cursor) : Bool :=
  c.column = 0 && endsToken (c.peek? 3)
    && (c.rest.take 3 = ['-', '-', '-'] || c.rest.take 3 = ['.', '.', '.'])

end Cursor

end FpgaRouting.Yaml
