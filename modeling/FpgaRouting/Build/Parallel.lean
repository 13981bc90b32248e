import FpgaRouting.Build.WorkSplit
import FpgaRouting.Stamp.Build

/-!
# Build/Parallel — the build on several workers

The computed tiles are divided among the workers, and so are the stamped ones after that.  The
results are joined in the order of the workers, **so the first failure in that order is reported,
whichever worker comes to its end first**.
-/

namespace FpgaRouting

namespace Connections

/-- Joins the parts of a map in order. -/
def join (parts : List Connections) : Connections := parts.foldl merge empty

end Connections

namespace Fabric

/-- All connections of the device, computed by a number of workers. -/
def parallelConnections (f : Fabric) (workers : Nat) (stamp : Bool) : Outcome Connections := do
  let plan? ← if stamp then do pure (← StampDecision.of f).plan? else pure none
  let computed := match plan? with
    | some p => p.computedTiles f
    | none => f.tiles
  let parts ← (Part.split 0 computed.length workers).mapM fun part =>
    f.connectionsOver (part.slice computed)
  let m := Connections.join parts
  match plan? with
  | none => return m
  | some p =>
    let stamped := p.copiedTiles f
    let parts ← Outcome.ofWord <| (Part.split 0 stamped.length workers).mapM fun part =>
      p.copyTiles m (part.slice stamped) .empty
    return m.merge (Connections.join parts)

end Fabric

end FpgaRouting
