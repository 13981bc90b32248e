import FpgaRouting.Proofs.Channel.Admission
import FpgaRouting.Proofs.Fabric

/-!
# Proofs/Channel/Wirepoints — all sides of a tile see the same wirepoint

      side             looks at    group     sees
      left, bottom      (x, y)       g      the wirepoint after the segment, g + 1
      right, top      one further   g + 1   the one before it, g + 1

Two things cancel.  The high sides look one place further than the low ones, where the wire is in
the next group; the low sides see the wirepoint after the segment, which is one more.  **Every side
that has a channel therefore sees a wire at its tile's distance, counted one further**
(`seen_beside`).  A wire that reaches across the device is excepted: where it spans its channel, its
group says nothing about the place.
-/

namespace FpgaRouting

/-- What is shorter than the device both ways is shorter than every channel. -/
theorem Device.lt_extent {device : Device} {length : Nat} (hwidth : length < device.width)
    (hheight : length < device.height) (axis : Axis) : length < device.extent axis := by
  cases axis
  · exact hwidth
  · exact hheight

/-- **A wire shorter than its channel is seen at the distance of the tile**, from every side. -/
theorem Channel.Laid.seen_beside {ws : List WireType} {counts : List Nat} {d : Directionality}
    {c : Channel} (h : c.Laid ws counts d) {i : Nat} {s : Slot}
    (hs : (slots (Block.sequence 0 0 ws counts))[i]? = some s) {t : Tile} {side : Side}
    (hcoord : c.coord = ChannelCoord.beside t side) (hlength : s.block.length < c.extent) :
    c.seen d side s = (t.x + t.y + 1 + s.rel / d.tracksPerWire) % s.block.length := by
  have hdistance := ChannelCoord.distance_beside t side
  rw [Channel.seen, Track.groupAt_of_lt (h.phase_lt hs) hlength, Slot.phase, hcoord, Track.phase,
    hdistance, observed]
  split_ifs
  · rw [Nat.mod_add_mod, Nat.add_zero, Nat.add_right_comm]
  · rfl

namespace Layout

/-- **All sides of a switchblock see the same wirepoint.**  On a layout within the limit, take a
tile and a track index.  The track with that index is of one wire type on every side that has a
channel.  If its wires are shorter than the device both ways, every such side observes it at the
distance of the tile, counted one further and staggered by the wire, modulo the length: also on the
edges of the device, and where the wire is cut. -/
theorem wirepoint_eq_of_short {device : Device} {d : Directionality} {wireTypes : List WireType}
    {l : Layout} (hsize : Moderate device wireTypes) (hbuild : build device d wireTypes = .ok l)
    (t : Tile) {i : Nat} (hi : i < device.channelWidth) :
    ∃ length start : Nat,
      (∀ side c, l.channelAt? t side = .ok (some c) →
        ∃ track, c.track i = .ok track ∧ track.length = length ∧ track.blockStart = start) ∧
      (length < device.width → length < device.height →
        (∀ side c, l.channelAt? t side = .ok (some c) →
          c.wirepoint i side
            = .ok ((t.x + t.y + 1 + (i - start) / d.tracksPerWire) % length)) ∧
        ∀ side side' c c', l.channelAt? t side = .ok (some c) →
          l.channelAt? t side' = .ok (some c') → c.wirepoint i side = c'.wirepoint i side') := by
  obtain ⟨slot, hslot, hrel⟩ := exists_slot hbuild hi
  refine ⟨slot.block.length, slot.block.start, fun side c hc => ?_, fun hwidth hheight => ?_⟩
  · obtain ⟨hlaid, -, -⟩ := laid_of_channelAt? hsize hbuild hc
    exact ⟨_, hlaid.track_eq hslot, rfl, rfl⟩
  have hseen : ∀ side c, l.channelAt? t side = .ok (some c) → c.wirepoint i side
      = .ok ((t.x + t.y + 1 + (i - slot.block.start) / d.tracksPerWire) % slot.block.length) := by
    intro side c hc
    obtain ⟨hlaid, hcoord, hextent⟩ := laid_of_channelAt? hsize hbuild hc
    have hshort : slot.block.length < c.extent := by
      rw [hextent]
      exact Device.lt_extent hwidth hheight _
    rw [hlaid.wirepoint_eq hslot, hrel, ← hlaid.seen_beside hslot hcoord hshort]
    rfl
  exact ⟨hseen, fun side side' c c' hc hc' =>
    (hseen side c hc).trans (hseen side' c' hc').symm⟩

/-- On the edge of a device, the second wire of length `2` is cut above the tile. -/
theorem wirepoint_eq_of_short_edge : ∃ l top right,
    build ⟨3, 3, 2⟩ .bidirectional [⟨"long", 2, 1⟩] = .ok l ∧
    l.channelAt? ⟨0, 2⟩ .top = .ok (some top) ∧ l.channelAt? ⟨0, 2⟩ .right = .ok (some right) ∧
    top.wirepoint 1 .top = right.wirepoint 1 .right ∧ top.wirepoint 1 .top = .ok 0 := by
  refine ⟨_, _, _, by cbv, by cbv, by cbv, ?_, by cbv⟩
  obtain ⟨length, start, htrack, hshort⟩ := @wirepoint_eq_of_short ⟨3, 3, 2⟩ .bidirectional
    [⟨"long", 2, 1⟩] _ (by decide) (by cbv) ⟨0, 2⟩ 1 (by decide)
  obtain ⟨track, htop, hlength, -⟩ := htrack .top _ (by cbv)
  obtain rfl : length = 2 := hlength.symm.trans (congrArg Track.length (Except.ok.inj htop).symm)
  exact (hshort (by decide) (by decide)).2 .top .right _ _ (by cbv) (by cbv)

end Layout

end FpgaRouting
