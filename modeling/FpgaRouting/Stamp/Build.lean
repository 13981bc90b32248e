import FpgaRouting.Build.Tiles
import FpgaRouting.Stamp.Plan

/-!
# Stamp/Build — the stamped build

The copied tiles are collected apart and merged at the end, so that **copies are taken from computed
tiles only**.
-/

namespace FpgaRouting

namespace Stamping

/-- Copies the reference tile of one tile. -/
def copyTile (p : Stamping) (reference : Connections) (m : Connections) (t : Tile) :
    Except Fault Connections := do
  let x ← p.sourceColumn t
  return (reference.atTile ⟨x, 1⟩).foldl (fun m (k, ts) => m.addAll (k.movedTo t) ts) m

/-- Copies the reference tiles of some tiles, one after another. -/
def copyTiles (p : Stamping) (reference : Connections) (ts : List Tile) (m : Connections) :
    Except Fault Connections :=
  ts.foldlM (p.copyTile reference) m

end Stamping

namespace Fabric

/-- All connections of the device, those of the interior copied. -/
def stampedConnections (f : Fabric) (p : Stamping) : Outcome Connections := do
  let m ← f.connectionsOver (p.computedTiles f)
  let stamped ← p.copyTiles m (p.copiedTiles f) .empty
  return m.merge stamped

/-- All connections of the device, stamped if it can be. -/
def connections (f : Fabric) : Outcome Connections := do
  match (← StampDecision.of f).plan? with
  | some p => f.stampedConnections p
  | none => f.computedConnections

end Fabric

end FpgaRouting
