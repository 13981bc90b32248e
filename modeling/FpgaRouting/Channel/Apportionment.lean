import FpgaRouting.Failure

/-!
# Channel/Apportionment — how many tracks each wire type gets

The tracks of a channel are handed out in units, one physical wire each, to whichever type has the
largest remaining demand; **a tie goes to the type listed first**.  The demand of a type starts at
its frequency times the number of units, and a unit costs the sum of the frequencies, so the outcome
is the largest-remainder apportionment by frequency.
-/

namespace FpgaRouting

/-- What a wire type still demands and what it has been granted. -/
structure Share where
  demand : Int
  units : Nat
deriving DecidableEq, Repr

namespace Share

/-- The index of the first share whose demand no other exceeds. -/
def leader (shares : List Share) : Nat :=
  shares.findIdx fun s => shares.all fun s' => s'.demand ≤ s.demand

/-- The shares after one unit has been granted to the leader. -/
def grant (cost : Int) (shares : List Share) : Except Fault (List Share) :=
  match shares[leader shares]? with
  | none => .ok shares
  | some s => do
    let demand ← Word.subSigned s.demand cost
    return shares.set (leader shares) ⟨demand, s.units + 1⟩

/-- The shares after a number of units have been granted, one after another. -/
def grantAll (cost : Int) : Nat → List Share → Except Fault (List Share)
  | 0, shares => .ok shares
  | units + 1, shares => do grantAll cost units (← grant cost shares)

end Share

/-- The number of tracks of each wire type in a channel. -/
def tracksPerType (channelWidth : Nat) (wireTypes : List WireType) (d : Directionality) :
    Outcome (List Nat) := do
  if channelWidth % d.tracksPerWire ≠ 0 then
    Outcome.refuse (.config (.unevenWidth channelWidth d))
  let units := channelWidth / d.tracksPerWire
  let total ← Word.sum (wireTypes.map (·.frequency))
  if 0 < units ∧ total = 0 then
    Outcome.refuse (.config .zeroFrequencies)
  let demands ← Outcome.ofWord (wireTypes.mapM fun w => Word.mul units w.frequency)
  let shares := demands.map fun demand => ⟨Word.toSigned demand, 0⟩
  let granted ← Share.grantAll (Word.toSigned total) units shares
  return granted.map (·.units * d.tracksPerWire)

end FpgaRouting
