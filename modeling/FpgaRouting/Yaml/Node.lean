import FpgaRouting.Yaml.Token

/-!
# Yaml/Node — the documents of a YAML text

A document is one node: a scalar, a sequence or a mapping, each either laid out in lines or
bracketed.  **Where a node is left out there is an empty plain scalar.**

Each function takes tokens off the front and returns the rest.  Of three nested calls at least one
takes a token, so that three times their number is fuel enough.
-/

namespace FpgaRouting.Yaml

inductive Node
  | scalar (text : String) (plain : Bool)
  | sequence (items : List Node)
  | mapping (entries : List (Node × Node))
deriving Repr, Inhabited

namespace Node

/-- The node that is left out. -/
def empty : Node := scalar "" true

mutual

/-- A node.  Only in a block may it be laid out in lines, and only after a key may its sequence
stand at the key's own column. -/
def ofTokens? (fuel : Nat) (inBlock afterKey : Bool) (ts : List Token) :
    Option (Node × List Token) :=
  match fuel with
  | 0 => none
  | fuel + 1 =>
    match ts with
    | .scalar text plain :: ts => some (scalar text plain, ts)
    | .flowSequenceStart :: ts => flowSequence? fuel true ts []
    | .flowMappingStart :: ts => flowMapping? fuel true ts []
    | .blockSequenceStart :: ts => if inBlock then blockSequence? fuel ts [] else none
    | .blockMappingStart :: ts => if inBlock then blockMapping? fuel ts [] else none
    | .blockEntry :: _ => if afterKey then keySequence? fuel ts [] else none
    | _ => none

/-- The items of a sequence laid out in lines, up to its end. -/
def blockSequence? (fuel : Nat) (ts : List Token) (items : List Node) :
    Option (Node × List Token) :=
  match fuel with
  | 0 => none
  | fuel + 1 =>
    match ts with
    | .blockEnd :: ts => some (sequence items.reverse, ts)
    | .blockEntry :: ts =>
      match ts with
      | .blockEntry :: _ | .blockEnd :: _ => blockSequence? fuel ts (empty :: items)
      | _ => do
        let (item, ts) ← ofTokens? fuel true false ts
        blockSequence? fuel ts (item :: items)
    | _ => none

/-- The items of a sequence at the column of its key; it ends with the last of them. -/
def keySequence? (fuel : Nat) (ts : List Token) (items : List Node) : Option (Node × List Token) :=
  match fuel with
  | 0 => none
  | fuel + 1 =>
    match ts with
    | .blockEntry :: ts =>
      match ts with
      | .blockEntry :: _ | .key :: _ | .value :: _ | .blockEnd :: _ =>
        keySequence? fuel ts (empty :: items)
      | _ => do
        let (item, ts) ← ofTokens? fuel true false ts
        keySequence? fuel ts (item :: items)
    | ts => some (sequence items.reverse, ts)

/-- A key or a value in a mapping laid out in lines. -/
def blockPart? (fuel : Nat) (ts : List Token) : Option (Node × List Token) :=
  match fuel with
  | 0 => none
  | fuel + 1 =>
    match ts with
    | .key :: _ | .value :: _ | .blockEnd :: _ => some (empty, ts)
    | _ => ofTokens? fuel true true ts

/-- The entries of a mapping laid out in lines, up to its end. -/
def blockMapping? (fuel : Nat) (ts : List Token) (entries : List (Node × Node)) :
    Option (Node × List Token) :=
  match fuel with
  | 0 => none
  | fuel + 1 =>
    match ts with
    | .blockEnd :: ts => some (mapping entries.reverse, ts)
    | .key :: ts => do
      let (key, ts) ← blockPart? fuel ts
      match ts with
      | .value :: ts =>
        let (value, ts) ← blockPart? fuel ts
        blockMapping? fuel ts ((key, value) :: entries)
      | ts => blockMapping? fuel ts ((key, empty) :: entries)
    | _ => none

/-- The items of a bracketed sequence, up to its end.  After the first one a comma comes before each
item, and one may come after the last. -/
def flowSequence? (fuel : Nat) (isFirst : Bool) (ts : List Token) (items : List Node) :
    Option (Node × List Token) :=
  match fuel with
  | 0 => none
  | fuel + 1 =>
    match ts with
    | .flowSequenceEnd :: ts => some (sequence items.reverse, ts)
    | _ => do
      let ts ← if isFirst then some ts else afterComma? ts
      match ts with
      | .flowSequenceEnd :: ts => some (sequence items.reverse, ts)
      | .key :: ts =>
        let (pair, ts) ← flowPair? fuel ts
        flowSequence? fuel false ts (pair :: items)
      | _ =>
        let (item, ts) ← ofTokens? fuel false false ts
        flowSequence? fuel false ts (item :: items)

/-- A mapping of one entry without brackets of its own, after the mark of its key. -/
def flowPair? (fuel : Nat) (ts : List Token) : Option (Node × List Token) :=
  match fuel with
  | 0 => none
  | fuel + 1 =>
    match ts with
    -- A key that is left out takes the colon, the comma or the bracket for its own.
    | .value :: ts | .flowEntry :: ts | .flowSequenceEnd :: ts =>
      flowPairValue? fuel empty ts
    | _ => do
      let (key, ts) ← ofTokens? fuel false false ts
      flowPairValue? fuel key ts

/-- The value of such a mapping. -/
def flowPairValue? (fuel : Nat) (key : Node) (ts : List Token) : Option (Node × List Token) :=
  match fuel with
  | 0 => none
  | fuel + 1 =>
    match ts with
    | .value :: ts =>
      match ts with
      | .flowEntry :: _ | .flowSequenceEnd :: _ => some (mapping [(key, empty)], ts)
      | _ => do
        let (value, ts) ← ofTokens? fuel false false ts
        some (mapping [(key, value)], ts)
    | _ => some (mapping [(key, empty)], ts)

/-- The entries of a bracketed mapping, up to its end. -/
def flowMapping? (fuel : Nat) (isFirst : Bool) (ts : List Token) (entries : List (Node × Node)) :
    Option (Node × List Token) :=
  match fuel with
  | 0 => none
  | fuel + 1 =>
    match ts with
    | .flowMappingEnd :: ts => some (mapping entries.reverse, ts)
    | _ => do
      let ts ← if isFirst then some ts else afterComma? ts
      match ts with
      | .flowMappingEnd :: ts => some (mapping entries.reverse, ts)
      | .key :: ts =>
        let (key, ts) ← flowPart? fuel ts
        match ts with
        | .value :: ts =>
          let (value, ts) ← flowPart? fuel ts
          flowMapping? fuel false ts ((key, value) :: entries)
        | ts => flowMapping? fuel false ts ((key, empty) :: entries)
      | _ =>
        let (key, ts) ← ofTokens? fuel false false ts
        flowMapping? fuel false ts ((key, empty) :: entries)

/-- A key or a value in a bracketed mapping. -/
def flowPart? (fuel : Nat) (ts : List Token) : Option (Node × List Token) :=
  match fuel with
  | 0 => none
  | fuel + 1 =>
    match ts with
    | .value :: _ | .flowEntry :: _ | .flowMappingEnd :: _ => some (empty, ts)
    | _ => ofTokens? fuel false false ts

/-- The tokens after a comma. -/
def afterComma? : List Token → Option (List Token)
  | .flowEntry :: ts => some ts
  | _ => none

end

/-! ## Documents -/

/-- A version line in front of a document.  There may be one, of a version that is known. -/
def directives? : List Token → Option (List Token)
  | .version major minor :: ts =>
    match ts with
    | .version .. :: _ => none
    | _ => if major = 1 ∧ (minor = 1 ∨ minor = 2) then some ts else none
  | ts => some ts

/-- The documents after the first `...` or `---`, each of which starts with `---`. -/
def explicit? (fuel : Nat) (ts : List Token) (documents : List Node) : Option (List Node) :=
  match fuel with
  | 0 => none
  | fuel + 1 =>
    match ts with
    | [] => some documents.reverse
    | .documentEnd :: ts => explicit? fuel ts documents
    | _ => do
      match ← directives? ts with
      | .documentStart :: ts =>
        match ts with
        | [] | .version .. :: _ | .documentStart :: _ | .documentEnd :: _ =>
          explicit? fuel ts (empty :: documents)
        | _ =>
          let (document, ts) ← ofTokens? fuel true false ts
          explicit? fuel ts (document :: documents)
      | _ => none

/-- The documents of a text.  The first one needs no `---`. -/
def documents? (text : String) : Option (List Node) := do
  let ts ← tokens? text
  let fuel := 3 * ts.length + 3
  match ts with
  | [] | .version .. :: _ | .documentStart :: _ => explicit? fuel ts []
  | _ =>
    let (document, ts) ← ofTokens? fuel true false ts
    explicit? fuel ts [document]

/-- The node of a text that is one document. -/
def ofText? (text : String) : Option Node := do
  match ← documents? text with
  | [document] => some document
  | _ => none

end Node

end FpgaRouting.Yaml
