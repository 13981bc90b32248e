import FpgaRouting.Channel.Layout

/-!
# Fabric — an architecture that has been accepted

A `Fabric` is all that a build reads: the device with its channels laid out, and the switchblocks
with their rules resolved to wire types and their formulas parsed.  `Fabric.accept` accepts the
records or **reports the first violated check**: wire type names, then switchblock by switchblock
its directionality, the names in its rules and its formulas, then the geometry.  A build starts from
`Fabric.ofArchitecture`, where the tracks of the accepted device also have their identities.
-/

namespace FpgaRouting

/-- A rule whose wire types are given by their index. -/
structure Rule where
  fromTypes : List Nat
  toTypes : List Nat
  fromPoints : Option (List Nat)
  toPoints : Option (List Nat)
  switchName : String
deriving DecidableEq, Repr

/-- A switchblock with parsed formulas, in the order of their side pairs. -/
structure Switchblock where
  name : String
  rules : List Rule
  permutations : List (SidePair × List Formula)
deriving DecidableEq, Repr

/-- The formulas of a side pair. -/
def Switchblock.formulas (s : Switchblock) (p : SidePair) : List Formula :=
  (s.permutations.lookup p).getD []

/-- The first member of a list that stands in it before, or in `seen`. -/
def firstRepeated (seen : List String) : List String → Option String
  | [] => none
  | name :: names => if name ∈ seen then some name else firstRepeated (name :: seen) names

namespace SwitchblockRecord

/-- The index of the wire type of a name. -/
def wireType (s : SwitchblockRecord) (wireTypes : List WireType) (name : String) : Outcome Nat :=
  match wireTypes.findIdx? (·.name = name) with
  | some index => .ok index
  | none => Outcome.refuse (.config (.unknownWireType s.name name))

/-- A rule resolved: the from types first, then the to types. -/
def rule (s : SwitchblockRecord) (wireTypes : List WireType) (r : RuleRecord) : Outcome Rule := do
  let fromTypes ← r.fromTypes.mapM (s.wireType wireTypes)
  let toTypes ← r.toTypes.mapM (s.wireType wireTypes)
  return {
    fromTypes
    toTypes
    fromPoints := r.fromPoints
    toPoints := r.toPoints
    switchName := r.switchName.getD s.switchName }

/-- A formula of a side pair, parsed. -/
def formula (s : SwitchblockRecord) (p : SidePair) (text : String) : Outcome Formula :=
  match Formula.parse text with
  | .ok f => .ok f
  | .error e => Outcome.refuse (.formula s.name p e)

/-- The switchblock of a record, on a device of directionality `d`.  A side pair without formulas is
left out. -/
def resolve (s : SwitchblockRecord) (d : Directionality) (wireTypes : List WireType) :
    Outcome Switchblock := do
  if s.directionality ≠ d then
    Outcome.refuse (.config (.directionality s.name s.directionality d))
  let rules ← s.rules.mapM (s.rule wireTypes)
  let permutations ← s.permutations.toList.mapM fun (p, texts) => do
    return (p, ← texts.mapM (s.formula p))
  return ⟨s.name, rules, permutations.filter (!·.2.isEmpty)⟩

end SwitchblockRecord

structure Fabric where
  device : Device
  directionality : Directionality
  wireTypes : List WireType
  layout : Layout
  switchblocks : List Switchblock
deriving DecidableEq, Repr

namespace Fabric

/-- Accepts an architecture. -/
def accept (a : Architecture) : Outcome Fabric := do
  if let some name := firstRepeated [] (a.wireTypes.map (·.name)) then
    Outcome.refuse (.config (.duplicateWireType name))
  let switchblocks ← a.switchblocks.mapM (·.resolve a.directionality a.wireTypes)
  let layout ← Layout.lay a.device a.directionality a.wireTypes
  return ⟨a.device, a.directionality, a.wireTypes, layout, switchblocks⟩

/-- The fabric of an accepted architecture, with its tracks numbered. -/
def ofArchitecture (a : Architecture) : Outcome Fabric := do
  let f ← accept a
  return { f with layout := ← f.layout.number }

/-- The length of the wire type with an index. -/
def lengthOf (f : Fabric) (wireType : Nat) : Except Fault Nat :=
  match f.wireTypes[wireType]? with
  | some w => .ok w.length
  | none => .error .outOfRange

/-- Every tile with a switchblock, column by column. -/
def tiles (f : Fabric) : List Tile := Tile.grid f.device.width f.device.height

end Fabric

end FpgaRouting
