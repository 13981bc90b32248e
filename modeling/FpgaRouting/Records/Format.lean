import FpgaRouting.Architecture
import FpgaRouting.Word

/-!
# Records/Format — reading records from any format

The same records can be written in more than one format.  A `Format` says how the values of one are
taken apart; `Architecture.read?` is the shape of the records, once for all formats: fields go by
name, **a field that no record has is passed over, one that is given twice is refused**, and a few
fields have a default.
-/

namespace FpgaRouting

/-- How the values of a format are taken apart. -/
structure Format (V : Type) where
  text? : V → Option String
  /-- An unsigned word. -/
  word? : V → Option Nat
  /-- One of a fixed set of names. -/
  choice? : V → Option String
  /-- Whether the value says that there is none. -/
  isNull : V → Bool
  items? : V → Option (List V)
  /-- The entries of a map with text keys. -/
  entries? : V → Option (List (String × V))
  /-- The fields of a record, whose names are given in their order. -/
  fields? : List String → V → Option (List (String × V))

namespace Format

variable {V α : Type}

/-- The field of a name: an outer `none` if it is given twice, an inner one if it is missing. -/
def field? (fields : List (String × V)) (name : String) : Option (Option V) :=
  match fields.filter (·.1 = name) with
  | [] => some none
  | [(_, v)] => some (some v)
  | _ => none

/-- A field that must be given. -/
def required (fields : List (String × V)) (name : String) (read : V → Option α) : Option α := do
  read (← (← field? fields name))

/-- A field with a default. -/
def defaulted (fields : List (String × V)) (name : String) (read : V → Option α) (default : α) :
    Option α := do
  match ← field? fields name with
  | none => return default
  | some v => read v

/-- A value that may be null. -/
def nullable (f : Format V) (read : V → Option α) (v : V) : Option (Option α) :=
  if f.isNull v then some none else (read v).map some

def list (f : Format V) (read : V → Option α) (v : V) : Option (List α) := do
  (← f.items? v).mapM read

/-! ## The records -/

def directionality? : String → Option Directionality
  | "bidirectional" => some .bidirectional
  | "unidirectional" => some .unidirectional
  | _ => none

def directionality (f : Format V) (v : V) : Option Directionality := do
  directionality? (← f.choice? v)

def device (f : Format V) (v : V) : Option Device := do
  let fields ← f.fields? ["width", "height", "channel_width"] v
  return {
    width := ← required fields "width" f.word?
    height := ← required fields "height" f.word?
    channelWidth := ← required fields "channel_width" f.word? }

def wireType (f : Format V) (v : V) : Option WireType := do
  let fields ← f.fields? ["name", "length", "frequency"] v
  return {
    name := ← required fields "name" f.text?
    length := ← required fields "length" f.word?
    frequency := ← defaulted fields "frequency" f.word? 1 }

def rule (f : Format V) (v : V) : Option RuleRecord := do
  let fields ←
    f.fields? ["from_type", "to_type", "from_points", "to_points", "switch_name"] v
  return {
    fromTypes := ← required fields "from_type" (f.list f.text?)
    toTypes := ← required fields "to_type" (f.list f.text?)
    fromPoints := ← defaulted fields "from_points" (f.nullable (f.list f.word?)) none
    toPoints := ← defaulted fields "to_points" (f.nullable (f.list f.word?)) none
    switchName := ← defaulted fields "switch_name" (f.nullable f.text?) none }

/-- A map from side pairs to formula texts.  **Of two keys for one pair the later counts.** -/
def permutations (f : Format V) (v : V) : Option Permutations := do
  (← f.entries? v).foldlM (fun map (key, texts) => do
    match SidePair.ofText key with
    | .ok p => return map.insert p (← f.list f.text? texts)
    | .error _ => none) ∅

def switchblock (f : Format V) (v : V) : Option SwitchblockRecord := do
  let fields ← f.fields? ["name", "directionality", "switch_name", "wireconns", "permutations"] v
  return {
    name := ← required fields "name" f.text?
    directionality := ← required fields "directionality" f.directionality
    switchName := ← required fields "switch_name" f.text?
    rules := ← required fields "wireconns" (f.list f.rule)
    permutations := ← defaulted fields "permutations" f.permutations ∅ }

end Format

/-- The architecture that a value of a format records. -/
def Architecture.read? {V : Type} (f : Format V) (v : V) : Option Architecture := do
  let fields ← f.fields? ["device", "directionality", "wire_types", "switchblocks"] v
  return {
    device := ← Format.required fields "device" f.device
    directionality := ← Format.required fields "directionality" f.directionality
    wireTypes := ← Format.required fields "wire_types" (f.list f.wireType)
    switchblocks := ← Format.required fields "switchblocks" (f.list f.switchblock) }

end FpgaRouting
