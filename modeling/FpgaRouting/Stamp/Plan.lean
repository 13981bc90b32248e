import FpgaRouting.Stamp.Period

/-!
# Stamp/Plan — which tiles are computed and which are copied

Away from the device edges the connections of a tile repeat.  A reference strip of one period is
computed in row `1`, and **every other interior tile is copied from the tile of the strip at the
same taxicab distance modulo the period**.

      y
      ^  E E E E E E E
      |  E c c c c c E      E - edge tile, computed
      |  E c c c c c E      R - reference tile, computed
      |  E R R R c c E      c - copied from R
      |  E E E E E E E
      +-----------------> x
-/

namespace FpgaRouting

/-- How a device of a size is stamped: with a strip of one period. -/
structure Stamping where
  period : Nat
  width : Nat
  height : Nat
deriving DecidableEq, Repr

namespace Stamping

/-- Whether a tile lies on an edge of the device. -/
def onEdge (p : Stamping) (t : Tile) : Bool :=
  t.x = 0 || t.y = 0 || t.x = p.width || t.y = p.height

/-- The column of the reference tile that a tile copies. -/
def sourceColumn (p : Stamping) (t : Tile) : Except Fault Nat := do
  let distance ← Word.add (← Word.sub t.x 1) (← Word.sub t.y 1)
  Word.add 1 (← Word.mod distance p.period)

/-- The reference strip. -/
def strip (p : Stamping) : List Tile := (List.range' 1 p.period).map fun x => ⟨x, 1⟩

/-- Whether a tile belongs to the reference strip. -/
def onStrip (p : Stamping) (t : Tile) : Bool := t.y = 1 && 1 ≤ t.x && t.x ≤ p.period

/-- The tiles that are computed: the reference strip and the edges. -/
def computedTiles (p : Stamping) (f : Fabric) : List Tile :=
  p.strip ++ f.tiles.filter p.onEdge

/-- The tiles that are copied. -/
def copiedTiles (p : Stamping) (f : Fabric) : List Tile :=
  f.tiles.filter fun t => !p.onEdge t && !p.onStrip t

end Stamping

/-- Whether a build of a device stamps. -/
inductive StampDecision
  /-- No rule connects any wire types. -/
  | noRules
  /-- The reference strip does not fit between the edges, or a wire is as long as the device. -/
  | unfit (period longest : Nat)
  | stamp (plan : Stamping)
deriving DecidableEq, Repr

namespace StampDecision

def plan? : StampDecision → Option Stamping
  | stamp plan => some plan
  | noRules | unfit .. => none

/-- The decision for a device.  The end of the reference strip must be a word, **so the longest
possible period is a fault**. -/
def of (f : Fabric) : Except Fault StampDecision := do
  let period ← f.period
  if period = 0 then return noRules
  let longest := (f.wireTypes.map (·.length)).foldl max 0
  let width ← Word.add period 1
  let d := f.device
  if d.width < width ∨ d.height < 2 ∨ min d.width d.height ≤ longest then
    return unfit period longest
  return stamp ⟨period, d.width, d.height⟩

end StampDecision

end FpgaRouting
