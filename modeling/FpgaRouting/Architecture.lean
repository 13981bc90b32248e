import Std.Data.ExtTreeMap
import FpgaRouting.Side

/-!
# Architecture — the records a device is described by

An `Architecture` is what its author writes down: the size of the tile grid, the wire types that
share each channel, and switchblocks whose rules name wire types and whose permutations are
formula texts per side pair.  Nothing here is checked; `Fabric` accepts or refuses the records.
-/

namespace FpgaRouting

/-- Whether a wire is driven from either end or from one. -/
inductive Directionality
  | bidirectional
  | unidirectional
deriving DecidableEq, Repr

namespace Directionality

def name : Directionality → String
  | bidirectional => "bidirectional"
  | unidirectional => "unidirectional"

/-- The number of tracks that run along one physical wire: **unidirectional wires come in pairs**
of opposite headings. -/
def tracksPerWire : Directionality → Nat
  | bidirectional => 1
  | unidirectional => 2

end Directionality

/-- The way a track is driven along its channel. -/
inductive Heading
  | both
  | increasing
  | decreasing
deriving DecidableEq, Repr

/-- The grid of logic tiles, and the number of tracks in each channel. -/
structure Device where
  width : Nat
  height : Nat
  channelWidth : Nat
deriving DecidableEq, Repr

/-- A kind of wire.  Its frequency is its share of the tracks of a channel. -/
structure WireType where
  name : String
  length : Nat
  frequency : Nat := 1
deriving DecidableEq, Repr

/-- Which wires a switchblock joins, by type and wirepoint at either end.  No list of points means
every wirepoint; no switch name means the one of the switchblock. -/
structure RuleRecord where
  fromTypes : List String
  toTypes : List String
  fromPoints : Option (List Nat) := none
  toPoints : Option (List Nat) := none
  switchName : Option String := none
deriving DecidableEq, Repr

/-- The formula texts of each side pair that has any. -/
abbrev Permutations := Std.ExtTreeMap SidePair (List String) compare

structure SwitchblockRecord where
  name : String
  directionality : Directionality
  switchName : String
  rules : List RuleRecord
  permutations : Permutations := ∅
deriving DecidableEq

/-- The formula texts of a pair, none for a pair that is not listed. -/
def SwitchblockRecord.formulas (s : SwitchblockRecord) (p : SidePair) : List String :=
  s.permutations.getD p []

structure Architecture where
  device : Device
  directionality : Directionality
  wireTypes : List WireType
  switchblocks : List SwitchblockRecord
deriving DecidableEq

end FpgaRouting
