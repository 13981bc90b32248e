import FpgaRouting.Build.Connect

/-!
# Build/Tiles — the connections of whole switchblocks

A tile is computed switchblock by switchblock, track by track and side pair by side pair.  **On a
bidirectional device every connection is entered together with its reverse**, whether or not the
reverse side pair has formulas of its own.
-/

namespace FpgaRouting

/-- The key that leads back from a target. -/
def Key.reverse (k : Key) (t : Target) : Key :=
  { k with enter := k.leave, leave := k.enter, track := t.track }

namespace Fabric

/-- The keys at a tile that a build asks for. -/
def keysAt (f : Fabric) (t : Tile) : List Key :=
  (List.range f.device.channelWidth).flatMap fun track =>
    SidePair.all.map fun p => ⟨t.x, t.y, p.enter, p.leave, track⟩

/-- Enters a connection, and its reverse if wires have no heading. -/
def enter (f : Fabric) (k : Key) (m : Connections) (t : Target) : Connections :=
  match f.directionality with
  | .bidirectional => (m.add k t).add (k.reverse t) ⟨k.track, t.switchName⟩
  | .unidirectional => m.add k t

/-- Enters all connections of a key in one switchblock. -/
def addKey (f : Fabric) (s : Switchblock) (m : Connections) (k : Key) : Outcome Connections := do
  return (← f.targetsIn k s).foldl (f.enter k) m

/-- Enters all connections of one switchblock at a tile. -/
def addSwitchblock (f : Fabric) (t : Tile) (m : Connections) (s : Switchblock) :
    Outcome Connections :=
  (f.keysAt t).foldlM (f.addKey s) m

/-- Enters all connections at a tile. -/
def addTile (f : Fabric) (m : Connections) (t : Tile) : Outcome Connections :=
  f.switchblocks.foldlM (f.addSwitchblock t) m

/-- All connections at a tile. -/
def connectionsAt (f : Fabric) (t : Tile) : Outcome Connections := f.addTile .empty t

/-- All connections at some tiles. -/
def connectionsOver (f : Fabric) (ts : List Tile) : Outcome Connections :=
  ts.foldlM f.addTile .empty

/-- All connections of the device, each tile computed. -/
def computedConnections (f : Fabric) : Outcome Connections := f.connectionsOver f.tiles

end Fabric

end FpgaRouting
