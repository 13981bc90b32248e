import FpgaRouting.Side
import FpgaRouting.Word

/-!
# Channel/Coord — where the channels are

The logic tiles form a grid, surrounded by a ring of I/O tiles.  A tile owns the horizontal channel
above it and the vertical one to its right, so that

* a horizontal channel exists at `1 ≤ x ≤ width`, `y ≤ height`, and runs along `x`;
* a vertical channel exists at `x ≤ width`, `1 ≤ y ≤ height`, and runs along `y`.

The coordinate along a channel is its *seg*, the one across it its *cross* coordinate.
-/

namespace FpgaRouting

/-- A tile of the grid, the I/O ring included. -/
structure Tile where
  x : Nat
  y : Nat
deriving DecidableEq, Repr

namespace Tile

/-- The order of tiles: column by column. -/
def order : Tile → Tile → Ordering := compareLex (compareOn x) (compareOn y)

instance : Ord Tile := ⟨order⟩

instance : Std.TransOrd Tile := by
  change Std.TransCmp order
  unfold order
  infer_instance

instance : Std.LawfulEqOrd Tile where
  compare_self := Std.ReflCmp.compare_self
  eq_of_compare {s t} h := by
    have h' : order s t = .eq := h
    simp only [order, compareLex_eq_eq, compareOn] at h'
    obtain ⟨hx, hy⟩ := h'
    cases s
    cases t
    simp_all

/-- Every tile that has a switchblock, in order. -/
def grid (width height : Nat) : List Tile :=
  (List.range (width + 1)).flatMap fun x => (List.range (height + 1)).map fun y => ⟨x, y⟩

end Tile

inductive Axis
  | horizontal
  | vertical
deriving DecidableEq, Repr

/-- The name of an axis in the text of a channel. -/
def Axis.name : Axis → String
  | .horizontal => "CHANX"
  | .vertical => "CHANY"

/-- The place of a channel. -/
structure ChannelCoord where
  axis : Axis
  x : Nat
  y : Nat
deriving DecidableEq, Repr

namespace ChannelCoord

def seg (c : ChannelCoord) : Nat :=
  match c.axis with
  | .horizontal => c.x
  | .vertical => c.y

def cross (c : ChannelCoord) : Nat :=
  match c.axis with
  | .horizontal => c.y
  | .vertical => c.x

def text (c : ChannelCoord) : String :=
  c.axis.name ++ "(" ++ toString c.x ++ ", " ++ toString c.y ++ ")"

/-- The channel that a side of the switchblock at a tile sees: the tile's own channels on the left
and at the bottom, those of its neighbours on the right and at the top. -/
def ofSide (t : Tile) : Side → Except Fault ChannelCoord
  | .top => do return ⟨.vertical, t.x, ← Word.add t.y 1⟩
  | .right => do return ⟨.horizontal, ← Word.add t.x 1, t.y⟩
  | .bottom => .ok ⟨.vertical, t.x, t.y⟩
  | .left => .ok ⟨.horizontal, t.x, t.y⟩

/-- Whether a device has the channel: **its place is in the grid and its seg is positive**. -/
def InDevice (width height : Nat) (c : ChannelCoord) : Prop :=
  c.x ≤ width ∧ c.y ≤ height ∧ 1 ≤ c.seg

instance (width height : Nat) (c : ChannelCoord) : Decidable (c.InDevice width height) :=
  inferInstanceAs (Decidable (_ ∧ _ ∧ _))

/-- The channels of a device: horizontal ones first, then vertical ones, each column by column. -/
def grid (width height : Nat) : List ChannelCoord :=
  ((List.range width).flatMap fun x =>
      (List.range (height + 1)).map fun y => ⟨.horizontal, x + 1, y⟩)
    ++ (List.range (width + 1)).flatMap fun x =>
      (List.range height).map fun y => ⟨.vertical, x, y + 1⟩

/-- The place of a channel in `grid`. -/
def rank (width height : Nat) (c : ChannelCoord) : Nat :=
  match c.axis with
  | .horizontal => (c.x - 1) * (height + 1) + c.y
  | .vertical => width * (height + 1) + c.x * height + (c.y - 1)

end ChannelCoord

end FpgaRouting
