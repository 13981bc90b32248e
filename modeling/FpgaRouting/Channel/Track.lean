import FpgaRouting.Failure

/-!
# Channel/Track — one segment of a wire

A physical wire of length `L` covers `L` consecutive segs of its channel, fewer where the device
ends.  A track is the part of it in one channel: its *group* is the position along the wire,
counted from `0`.

      wirepoint:  0-------1-------2-------3-------0
          group:      0       1       2       3

A switchblock observes a wire at a wirepoint.  **From the right or the top it sees the wirepoint
before the segment, which is the group; from the left or the bottom the one after it**, which is
one more, cyclically.
-/

namespace FpgaRouting

/-- The wirepoint of a track in `group` as a side observes it. -/
def wirepointSeen (group length : Nat) (side : Side) : Except Fault Nat :=
  if side.isLow then do Word.mod (← Word.add group 1) length
  else .ok group

/-- The group of the tracks that a side observes at a wirepoint below `length`. -/
def groupSeen (wirepoint length : Nat) (side : Side) : Except Fault Nat :=
  if side.isLow then do Word.mod (← Word.sub (← Word.add wirepoint length) 1) length
  else .ok wirepoint

/-- A track of a channel. -/
structure Track where
  /-- The index of the wire type. -/
  wireType : Nat
  length : Nat
  /-- The position in the channel. -/
  index : Nat
  heading : Heading
  /-- The first and the last seg that the wire covers. -/
  firstSeg : Nat
  lastSeg : Nat
  /-- The positions of the tracks of this type, the end exclusive. -/
  blockStart : Nat
  blockEnd : Nat
deriving DecidableEq, Repr

namespace Track

/-- The group of a track at a seg of a channel whose segs run from `1` to `extent`.  A wire that the
low edge cuts is measured from its end; one that both edges cut spans the device and has only the
group `0`. -/
def group (t : Track) (seg extent : Nat) : Outcome Nat := do
  let seg := Word.toSigned seg
  let length := Word.toSigned t.length
  let group ←
    if t.firstSeg ≠ 1 then Word.subSigned seg (Word.toSigned t.firstSeg)
    else if t.lastSeg ≠ extent then do
      let last ← Word.subSigned length 1
      let beyond ← Word.subSigned (Word.toSigned t.lastSeg) seg
      Word.subSigned last beyond
    else pure 0
  if group < 0 ∨ length ≤ group then
    Outcome.refuse (.internal (.group t.index t.firstSeg t.lastSeg t.length group seg))
  return Word.ofSigned group

/-- The segs of the physical wire `wire` of its type at a place in a channel, cut to the segs
`1` to `extent`.  **The wires of a type are staggered**, each by one more than the one before it,
and by the taxicab distance of the place. -/
def span (length wire seg cross extent : Nat) : Except Fault (Nat × Nat) := do
  let seg := Word.toSigned seg
  let length' := Word.toSigned length
  let distance ← Word.addSigned seg (Word.toSigned cross)
  let phase ← Word.remSigned
    (← Word.addSigned distance (Word.toSigned (wire % length))) length'
  let start ← Word.subSigned seg phase
  let stop ← Word.subSigned (← Word.addSigned start length') 1
  return (Word.ofSigned (max start 1), Word.ofSigned (min stop (Word.toSigned extent)))

end Track

/-- The heading of the `rel`-th track of a wire type: the two tracks of a unidirectional wire run
against each other. -/
def Directionality.heading (rel : Nat) : Directionality → Heading
  | .bidirectional => .both
  | .unidirectional => if rel % 2 = 0 then .increasing else .decreasing

end FpgaRouting
