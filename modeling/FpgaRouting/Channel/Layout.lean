import FpgaRouting.Channel.Apportionment
import FpgaRouting.Channel.Coord
import FpgaRouting.Channel.Track

/-!
# Channel/Layout — all tracks of a device

The tracks of all channels stand in one list, channel after channel in the order of
`ChannelCoord.grid`; **the place of a track in it is the track's identity**.  In each channel every
wire type has one block of consecutive tracks, in the order in which the types are listed.
-/

namespace FpgaRouting

/-- The tracks of one wire type in every channel. -/
structure Block where
  wireType : Nat
  length : Nat
  start : Nat
  count : Nat
deriving DecidableEq, Repr

namespace Block

/-- The blocks of wire types with given numbers of tracks, the first of which has the index
`wireType` and starts at the position `start`. -/
def sequence (wireType start : Nat) : List WireType → List Nat → List Block
  | w :: ws, count :: counts =>
    ⟨wireType, w.length, start, count⟩ :: sequence (wireType + 1) (start + count) ws counts
  | _, _ => []

/-- The `rel`-th track of a block at a place. -/
def track (b : Block) (d : Directionality) (c : ChannelCoord) (extent rel : Nat) :
    Except Fault Track := do
  let (firstSeg, lastSeg) ← Track.span b.length (rel / d.tracksPerWire) c.seg c.cross extent
  return {
    wireType := b.wireType
    length := b.length
    index := b.start + rel
    heading := d.heading rel
    firstSeg
    lastSeg
    blockStart := b.start
    blockEnd := b.start + b.count }

def tracks (b : Block) (d : Directionality) (c : ChannelCoord) (extent : Nat) :
    Except Fault (List Track) :=
  (List.range b.count).mapM (b.track d c extent)

end Block

/-- The last seg of the channels along an axis. -/
def Device.extent (d : Device) : Axis → Nat
  | .horizontal => d.width
  | .vertical => d.height

/-- The tracks of one channel. -/
def channelTracks (device : Device) (d : Directionality) (blocks : List Block)
    (c : ChannelCoord) : Except Fault (List Track) := do
  return (← blocks.mapM (·.tracks d c (device.extent c.axis))).flatten

/-- The channels of a device, laid out. -/
structure Layout where
  device : Device
  /-- The number of tracks of each wire type in every channel. -/
  counts : List Nat
  tracks : Array Track
deriving DecidableEq, Repr

/-- A view of one channel of a layout. -/
structure Channel where
  coord : ChannelCoord
  extent : Nat
  /-- The identity of the first track. -/
  first : Nat
  tracks : Array Track
deriving DecidableEq, Repr

namespace Layout

/-- The tracks of every channel, channel after channel. -/
def rows (device : Device) (d : Directionality) (blocks : List Block) :
    Except Fault (List (List Track)) :=
  (ChannelCoord.grid device.width device.height).mapM (channelTracks device d blocks)

/-- Lays out the channels of a device.  The device must have tiles and every wire a length; the
tracks are then apportioned and placed. -/
def lay (device : Device) (d : Directionality) (wireTypes : List WireType) : Outcome Layout := do
  if device.width = 0 ∨ device.height = 0 then
    Outcome.refuse (.config (.noTiles device.width device.height))
  if let some w := wireTypes.find? (·.length = 0) then
    Outcome.refuse (.config (.zeroLength w.name))
  let counts ← tracksPerType device.channelWidth wireTypes d
  -- The ring around the grid must have coordinates too.
  let _ ← Word.add device.width 1
  let _ ← Word.add device.height 1
  let blocks := Block.sequence 0 0 wireTypes counts
  let rows ← rows device d blocks
  return ⟨device, counts, rows.flatten.toArray⟩

/-- Gives the tracks their identities.  These are places in one list, and no list is longer than the
signed words reach. -/
def number (l : Layout) : Outcome Layout := do
  let _ ← Word.checkSigned l.tracks.size
  return l

/-- The channels of a device, laid out and with their tracks numbered. -/
def build (device : Device) (d : Directionality) (wireTypes : List WireType) : Outcome Layout := do
  (← lay device d wireTypes).number

/-- The number of channels of the device. -/
def channelCount (l : Layout) : Nat :=
  (ChannelCoord.grid l.device.width l.device.height).length

/-- The channel at a place, if the device has it. -/
def channel? (l : Layout) (c : ChannelCoord) : Option Channel :=
  if c.InDevice l.device.width l.device.height then
    let first := c.rank l.device.width l.device.height * l.device.channelWidth
    some {
      coord := c
      extent := l.device.extent c.axis
      first
      tracks := l.tracks.extract first (first + l.device.channelWidth) }
  else none

/-- The channel that a side of the switchblock at a tile sees. -/
def channelAt? (l : Layout) (t : Tile) (side : Side) : Except Fault (Option Channel) := do
  return l.channel? (← ChannelCoord.ofSide t side)

/-- The track with a given identity. -/
def track (l : Layout) (id : Nat) : Except Fault Track :=
  match l.tracks[id]? with
  | some t => .ok t
  | none => .error .outOfRange

end Layout

namespace Channel

def track (c : Channel) (index : Nat) : Except Fault Track :=
  match c.tracks[index]? with
  | some t => .ok t
  | none => .error .outOfRange

/-- The identity of a track. -/
def identity (c : Channel) (index : Nat) : Except Fault Nat := Word.add c.first index

/-- The group of a track where the channel is. -/
def group (c : Channel) (index : Nat) : Outcome Nat := do
  let t ← c.track index
  t.group c.coord.seg c.extent

/-- The wirepoint of a track as a side observes it. -/
def wirepoint (c : Channel) (index : Nat) (side : Side) : Outcome Nat := do
  let group ← c.group index
  let t ← c.track index
  wirepointSeen group t.length side

/-- The first track of a wire type at or after a position where a block starts.  The search goes
from block to block. -/
def firstOfTypeFrom? (c : Channel) (wireType index : Nat) : Option Nat :=
  if h : index < c.tracks.size then
    if c.tracks[index].wireType = wireType then some index
    else if index < c.tracks[index].blockEnd then
      c.firstOfTypeFrom? wireType c.tracks[index].blockEnd
    else none
  else none
termination_by c.tracks.size - index

/-- The first track of a wire type, if it has any here. -/
def firstOfType? (c : Channel) (wireType : Nat) : Option Nat := c.firstOfTypeFrom? wireType 0

/-- The tracks of a wire type with a heading. -/
def tracksOfType (c : Channel) (wireType : Nat) (heading : Heading) : List Nat :=
  match c.firstOfType? wireType with
  | none => []
  | some start =>
    let stop := (c.tracks[start]?.map (·.blockEnd)).getD start
    (List.range' start (stop - start)).filter fun index =>
      c.tracks[index]?.any (·.heading = heading)

/-- Those of them in a group. -/
def tracksOfGroup (c : Channel) (wireType group : Nat) (heading : Heading) : Outcome (List Nat) :=
  (c.tracksOfType wireType heading).filterM fun index => do
    return (← c.group index) = group

end Channel

end FpgaRouting
