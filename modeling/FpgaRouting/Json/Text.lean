import FpgaRouting.Json.Basic

/-!
# Json/Text — the two written forms of a JSON value

The compact form has no white space.  The pretty form puts each item and member on a line of its
own, indented by two blanks a level; an empty array or object stays on its line.  **Only the quote,
the backslash and the control characters are escaped**; all other characters stand for themselves.
-/

namespace FpgaRouting.Json

def hexDigit (n : Nat) : Char := (Nat.toDigits 16 n).headD '0'

/-- A character as it stands between quotes. -/
def escape (c : Char) : List Char :=
  match c with
  | '"' => ['\\', '"']
  | '\\' => ['\\', '\\']
  | '\x08' => ['\\', 'b']
  | '\x0c' => ['\\', 'f']
  | '\n' => ['\\', 'n']
  | '\r' => ['\\', 'r']
  | '\t' => ['\\', 't']
  | c =>
    if c.toNat < 0x20 then
      ['\\', 'u', '0', '0', hexDigit (c.toNat / 16), hexDigit (c.toNat % 16)]
    else [c]

def quote (s : String) : String :=
  String.ofList ('"' :: s.toList.flatMap escape ++ ['"'])

mutual

/-- The text without white space. -/
def compact : Json → String
  | null => "null"
  | bool b => if b then "true" else "false"
  | number i => toString i
  | string s => quote s
  | array items => "[" ++ String.intercalate "," (compactItems items) ++ "]"
  | object members => "\x7b" ++ String.intercalate "," (compactMembers members) ++ "\x7d"

def compactItems : List Json → List String
  | [] => []
  | item :: items => compact item :: compactItems items

def compactMembers : List (String × Json) → List String
  | [] => []
  | (name, value) :: members => (quote name ++ ":" ++ compact value) :: compactMembers members

end

/-- A line break and the indentation of a level. -/
def newline (level : Nat) : String := String.ofList ('\n' :: List.replicate (2 * level) ' ')

/-- Parts between brackets, each on a line of its own. -/
def enclose (opening closing : String) (level : Nat) : List String → String
  | [] => opening ++ closing
  | parts =>
    opening ++ newline (level + 1) ++ String.intercalate ("," ++ newline (level + 1)) parts
      ++ newline level ++ closing

mutual

/-- The indented text of a value that starts on a given level. -/
def prettyAt (level : Nat) : Json → String
  | array items => enclose "[" "]" level (prettyItems (level + 1) items)
  | object members => enclose "\x7b" "\x7d" level (prettyMembers (level + 1) members)
  | value => compact value

def prettyItems (level : Nat) : List Json → List String
  | [] => []
  | item :: items => prettyAt level item :: prettyItems level items

def prettyMembers (level : Nat) : List (String × Json) → List String
  | [] => []
  | (name, value) :: members =>
    (quote name ++ ": " ++ prettyAt level value) :: prettyMembers level members

end

/-- The indented text of a value. -/
def pretty (v : Json) : String := prettyAt 0 v

end FpgaRouting.Json
