import FpgaRouting.Fabric

/-!
# Stamp/Period — how often the connections repeat

Groups depend on a place only through the sum of its coordinates modulo the wire length.  A pair of
connected wire types therefore repeats with the least common multiple of their lengths along the
taxicab distance, and **all pairs together with the least common multiple of those**.  Neither
number need fit a word.
-/

namespace FpgaRouting.Fabric

/-- The least common multiple of the lengths of every from and to type of a rule. -/
def rulePeriods (f : Fabric) (r : Rule) : Except Fault (List Nat) := do
  let lcms ← r.fromTypes.mapM fun source => r.toTypes.mapM fun destination => do
    Word.lcm (← f.lengthOf source) (← f.lengthOf destination)
  return lcms.flatten

/-- The same over all rules. -/
def pairPeriods (f : Fabric) : Except Fault (List Nat) := do
  let lcms ← (f.switchblocks.flatMap (·.rules)).mapM f.rulePeriods
  return lcms.flatten

/-- The largest of them, `0` if no wire types are connected. -/
def longestPeriod (f : Fabric) : Except Fault Nat := do return (← f.pairPeriods).foldl max 0

/-- The period of the connections, `0` if no wire types are connected. -/
def period (f : Fabric) : Except Fault Nat := do
  match ← f.pairPeriods with
  | [] => return 0
  | l :: ls => ls.foldlM Word.lcm l

end FpgaRouting.Fabric
