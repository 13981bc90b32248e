import FpgaRouting.Connections.Export
import FpgaRouting.Records.Format

/-!
# Records/Json — architecture records as JSON values

Reading is strict: a number is no text and a text no number.  A record may also be an array of its
fields in their order, and a choice an object of one member that is null.  Writing gives every
field, so that **what is written reads back**.
-/

namespace FpgaRouting

namespace Json

def isNull : Json → Bool
  | null => true
  | _ => false

def text? : Json → Option String
  | string s => some s
  | _ => none

def word? : Json → Option Nat
  | number i => if 0 ≤ i ∧ i < Word.count then some i.toNat else none
  | _ => none

def choice? : Json → Option String
  | string s => some s
  | object [(name, null)] => some name
  | _ => none

def items? : Json → Option (List Json)
  | array items => some items
  | _ => none

def entries? : Json → Option (List (String × Json))
  | object members => some members
  | _ => none

def fields? (names : List String) : Json → Option (List (String × Json))
  | object members => some members
  | array items => if items.length ≤ names.length then some (names.zip items) else none
  | _ => none

/-- JSON as a format of records. -/
def format : Format Json := ⟨text?, word?, choice?, isNull, items?, entries?, fields?⟩

end Json

def Architecture.ofJson? (v : Json) : Option Architecture := Architecture.read? Json.format v

/-! ## Writing -/

def Json.strings (ss : List String) : Json := .array (ss.map .string)

def Json.nats (ns : List Nat) : Json := .array (ns.map .nat)

def WireType.toJson (w : WireType) : Json :=
  .object [("name", .string w.name), ("length", .nat w.length), ("frequency", .nat w.frequency)]

def RuleRecord.toJson (r : RuleRecord) : Json :=
  .object [
    ("from_type", .strings r.fromTypes),
    ("to_type", .strings r.toTypes),
    ("from_points", .option .nats r.fromPoints),
    ("to_points", .option .nats r.toPoints),
    ("switch_name", .option .string r.switchName)]

def SwitchblockRecord.toJson (s : SwitchblockRecord) : Json :=
  .object [
    ("name", .string s.name),
    ("directionality", .string s.directionality.name),
    ("switch_name", .string s.switchName),
    ("wireconns", .array (s.rules.map RuleRecord.toJson)),
    ("permutations",
      .object (s.permutations.toList.map fun (p, texts) => (p.code, .strings texts)))]

def Architecture.toJson (a : Architecture) : Json :=
  .object [
    ("device", a.device.toJson),
    ("directionality", .string a.directionality.name),
    ("wire_types", .array (a.wireTypes.map WireType.toJson)),
    ("switchblocks", .array (a.switchblocks.map SwitchblockRecord.toJson))]

end FpgaRouting
