import FpgaRouting.Records.Format
import FpgaRouting.Yaml.Node

/-!
# Records/Yaml — architecture records as a YAML document

YAML scalars have no type of their own; the field says what it wants.  **A text is any scalar as it
is written, a number only a plain one.**  A list or a map may be left empty, and an optional field
null; nothing else may.
-/

namespace FpgaRouting

namespace Yaml

/-- The unsigned word that a plain scalar spells: in decimal without leading zeros, or with a base
of 16, 8 or 2 in front, after an optional plus sign. -/
def wordOf? (cs : List Char) : Option Nat :=
  let unsigned := match cs with
    | '+' :: rest => rest
    | _ => cs
  match unsigned with
  | '0' :: 'x' :: digits => Text.wordIn? 16 digits
  | '0' :: 'o' :: digits => Text.wordIn? 8 digits
  | '0' :: 'b' :: digits => Text.wordIn? 2 digits
  | '0' :: _ :: _ => none
  | digits => Text.wordIn? 10 digits

namespace Node

def text? : Node → Option String
  | scalar text _ => some text
  | _ => none

def word? : Node → Option Nat
  | scalar text true => wordOf? text.toList
  | _ => none

def isNull : Node → Bool
  | scalar text true => ["", "~", "null", "Null", "NULL"].contains text
  | _ => false

def items? : Node → Option (List Node)
  | sequence items => some items
  | scalar "" true => some []
  | _ => none

/-- The entries of a mapping whose keys are scalars. -/
def entries? : Node → Option (List (String × Node))
  | mapping entries => entries.mapM fun (key, value) => do return (← key.text?, value)
  | scalar "" true => some []
  | _ => none

/-- YAML as a format of records. -/
def format : Format Node := ⟨text?, word?, text?, isNull, items?, entries?, fun _ => entries?⟩

end Node

end Yaml

/-- The architecture that a YAML text records.  **The text must be exactly one document.** -/
def Architecture.ofYaml? (text : String) : Option Architecture := do
  Architecture.read? Yaml.Node.format (← Yaml.Node.ofText? text)

end FpgaRouting
