import FpgaRouting.Proofs.Channel.Candidates

/-!
# Proofs/Channel/Rows — wires cut a row of channels into segments

      seg          1   2   3   4   5   6   7   8   9      length 4
      wire        ───────┤ ├─────────────┤ ├─────────
      covers       1–2       3–6             7–9
      group        2   3   0   1   2   3   0   1   2

Each channel of a row works out alone, from its own seg, where the wire there begins and ends.  A
step along the row is a step of the phase until the wire ends (`phase_add`), so **channels under one
wire find the same ends**, and the segs that they report partition the row.  The group goes up by
one from channel to channel, except on a wire that spans the row, where it is `0` throughout
(`exists_cutAt`).
-/

namespace FpgaRouting

namespace Track

variable {length wire cross extent s k : Nat}

/-! ## Steps along a wire -/

theorem phase_add_mod (length wire s cross k : Nat) :
    phase length wire (s + k) cross = (phase length wire s cross + k) % length := by
  rw [phase, phase, Nat.mod_add_mod]
  congr 1
  omega

/-- **A step along the row is a step of the phase** while the wire goes on. -/
theorem phase_add (h : phase length wire s cross + k < length) :
    phase length wire (s + k) cross = phase length wire s cross + k := by
  rw [phase_add_mod, Nat.mod_eq_of_lt h]

/-- …and backwards, as far as the wire reaches. -/
theorem phase_of_add (hpos : 0 < length) (h : k ≤ phase length wire (s + k) cross) :
    phase length wire (s + k) cross = phase length wire s cross + k := by
  have hlt := phase_lt hpos wire s cross
  have hk : k < length := h.trans_lt (phase_lt hpos wire (s + k) cross)
  rw [phase_add_mod] at h ⊢
  rcases Nat.lt_or_ge (phase length wire s cross + k) length with hin | hout
  · rw [Nat.mod_eq_of_lt hin]
  · rw [Nat.mod_eq_sub_mod hout, Nat.mod_eq_of_lt (by omega)] at h
    omega

/-! ## The segments of a row -/

/-- **How the wires of one index cut a row of channels**, at a seg of it.  The functions say what is
reported at each seg: the first and the last seg of the wire there, and the group. -/
structure CutAt (length wire cross extent : Nat) (first last group : Nat → Nat) (s : Nat) :
    Prop where
  first_pos : 1 ≤ first s
  first_le : first s ≤ s
  le_last : s ≤ last s
  last_le : last s ≤ extent
  same : ∀ s', first s ≤ s' → s' ≤ last s → first s' = first s ∧ last s' = last s
  size_le : last s + 1 - first s ≤ length
  size_eq : first s ≠ 1 → last s ≠ extent → last s + 1 - first s = length
  group_lt : group s < length
  group_eq_zero : first s = 1 → last s = extent → group s = 0
  group_eq : ¬ (first s = 1 ∧ last s = extent) → group s = (s + cross + wire) % length
  group_succ : ¬ (first s = 1 ∧ last s = extent) → s < last s → group (s + 1) = group s + 1

/-- The first seg that is reported at a seg of a row. -/
def rowFirst (length wire cross s : Nat) : Nat := firstAt s (phase length wire s cross)

/-- The last seg that is reported there. -/
def rowLast (length wire cross extent s : Nat) : Nat :=
  lastAt length s (phase length wire s cross) extent

/-- The group there. -/
def rowGroup (length wire cross extent s : Nat) : Nat :=
  groupAt length s (phase length wire s cross) extent

/-- **Channels under one wire find the same ends.** -/
theorem row_add (h : phase length wire (s + k) cross = phase length wire s cross + k)
    (hpos : 0 < length) :
    rowFirst length wire cross (s + k) = rowFirst length wire cross s ∧
      rowLast length wire cross extent (s + k) = rowLast length wire cross extent s := by
  have hlt := phase_lt hpos wire (s + k) cross
  rw [h] at hlt
  simp only [rowFirst, rowLast, h, firstAt, lastAt]
  omega

theorem row_same (hpos : 0 < length) {s' : Nat} (hfirst : rowFirst length wire cross s ≤ s')
    (hlast : s' ≤ rowLast length wire cross extent s) :
    rowFirst length wire cross s' = rowFirst length wire cross s ∧
      rowLast length wire cross extent s' = rowLast length wire cross extent s := by
  have hlt := phase_lt hpos wire s cross
  rcases Nat.le_total s s' with hle | hle
  · obtain ⟨k, rfl⟩ := Nat.exists_eq_add_of_le hle
    refine row_add (phase_add ?_) hpos
    simp only [rowLast, lastAt] at hlast
    omega
  · obtain ⟨k, rfl⟩ := Nat.exists_eq_add_of_le hle
    have hback : k ≤ phase length wire (s' + k) cross := by
      simp only [rowFirst, firstAt] at hfirst
      omega
    obtain ⟨hfirst', hlast'⟩ := row_add (phase_of_add hpos hback) hpos
    exact ⟨hfirst'.symm, hlast'.symm⟩

/-- **Along a wire the group goes up by one.** -/
theorem rowGroup_succ (hpos : 0 < length)
    (hpart : ¬ (rowFirst length wire cross s = 1 ∧ rowLast length wire cross extent s = extent))
    (hnext : s < rowLast length wire cross extent s) :
    rowGroup length wire cross extent (s + 1) = rowGroup length wire cross extent s + 1 := by
  have hphase : phase length wire (s + 1) cross = phase length wire s cross + 1 := by
    refine phase_add ?_
    simp only [rowLast, lastAt] at hnext
    omega
  obtain ⟨hfirst, hlast⟩ := row_add hphase hpos
  have hpart' : ¬ (rowFirst length wire cross (s + 1) = 1 ∧
      rowLast length wire cross extent (s + 1) = extent) := by
    rw [hfirst, hlast]
    exact hpart
  calc rowGroup length wire cross extent (s + 1)
      = phase length wire (s + 1) cross := if_neg hpart'
    _ = phase length wire s cross + 1 := hphase
    _ = rowGroup length wire cross extent s + 1 := congrArg (· + 1) (if_neg hpart).symm

/-- **Wires partition a row.** -/
theorem cutAt (hpos : 0 < length) (hs : 1 ≤ s) (hs' : s ≤ extent) :
    CutAt length wire cross extent (rowFirst length wire cross) (rowLast length wire cross extent)
      (rowGroup length wire cross extent) s := by
  have hlt := phase_lt hpos wire s cross
  have hfirst : rowFirst length wire cross s = max (s - phase length wire s cross) 1 := rfl
  have hlast : rowLast length wire cross extent s
      = min (s + (length - 1 - phase length wire s cross)) extent := rfl
  exact {
    first_pos := by omega
    first_le := by omega
    le_last := by omega
    last_le := by omega
    same := fun _ => row_same hpos
    size_le := by omega
    size_eq := by omega
    group_lt := groupAt_lt hlt
    group_eq_zero := fun hlow hhigh => if_pos ⟨hlow, hhigh⟩
    group_eq := fun hpart => if_neg hpart
    group_succ := rowGroup_succ hpos }

end Track

/-! ## The rows of a layout -/

namespace ChannelCoord

/-- The place at a seg of the same row. -/
def atSeg (c : ChannelCoord) (seg : Nat) : ChannelCoord :=
  match c.axis with
  | .horizontal => ⟨.horizontal, seg, c.y⟩
  | .vertical => ⟨.vertical, c.x, seg⟩

@[simp] theorem axis_atSeg (c : ChannelCoord) (seg : Nat) : (c.atSeg seg).axis = c.axis := by
  obtain ⟨_ | _, x, y⟩ := c <;> rfl

@[simp] theorem seg_atSeg (c : ChannelCoord) (seg : Nat) : (c.atSeg seg).seg = seg := by
  obtain ⟨_ | _, x, y⟩ := c <;> rfl

@[simp] theorem cross_atSeg (c : ChannelCoord) (seg : Nat) : (c.atSeg seg).cross = c.cross := by
  obtain ⟨_ | _, x, y⟩ := c <;> rfl

/-- **A row goes through the whole device.** -/
theorem InDevice.atSeg {device : Device} {c : ChannelCoord}
    (h : c.InDevice device.width device.height) {seg : Nat} (hpos : 1 ≤ seg)
    (hle : seg ≤ device.extent c.axis) :
    (c.atSeg seg).InDevice device.width device.height := by
  obtain ⟨_ | _, x, y⟩ := c
  · exact ⟨hle, h.2.1, hpos⟩
  · exact ⟨h.1, hle, hpos⟩

end ChannelCoord

namespace Layout

/-- **Wires partition every row of channels.**  On a layout within the limit, take the row of any
channel and any index.  The tracks with that index belong to one wire type all along the row, and
each has a group.  The segs that they report lie on the row, contain the seg they are reported at
and are reported by each other, so that they partition the row; they are as many as the wire is
long, or fewer at an end of the row.  The group is `0` on a wire that spans the row, and otherwise
the distance of the place, staggered by the wire, modulo the length: one more from each channel
under the wire to the next. -/
theorem exists_cutAt {device : Device} {d : Directionality} {wireTypes : List WireType} {l : Layout}
    (hsize : Moderate device wireTypes) (hbuild : build device d wireTypes = .ok l)
    {p : ChannelCoord} {c : Channel} (hc : l.channel? p = some c) {i : Nat}
    (hi : i < device.channelWidth) :
    ∃ (length start : Nat) (first last group : Nat → Nat),
      ∀ s, 1 ≤ s → s ≤ device.extent p.axis →
        (∃ c t, l.channel? (p.atSeg s) = some c ∧ c.track i = .ok t ∧ t.length = length ∧
          t.blockStart = start ∧ t.firstSeg = first s ∧ t.lastSeg = last s ∧
          c.group i = .ok (group s)) ∧
        Track.CutAt length ((i - start) / d.tracksPerWire) p.cross (device.extent p.axis) first
          last group s := by
  have hp := inDevice_of_channel? hbuild hc
  obtain ⟨slot, hslot, hrel⟩ := exists_slot hbuild hi
  refine ⟨slot.block.length, slot.block.start,
    Track.rowFirst slot.block.length (slot.rel / d.tracksPerWire) p.cross,
    Track.rowLast slot.block.length (slot.rel / d.tracksPerWire) p.cross (device.extent p.axis),
    Track.rowGroup slot.block.length (slot.rel / d.tracksPerWire) p.cross (device.extent p.axis),
    fun s hs hs' => ⟨?_, ?_⟩⟩
  · have hchannel := channel?_eq hsize hbuild (hp.atSeg hs hs')
    obtain ⟨hlaid, hcoord, hextent⟩ := Channel.laid_of_channel? hsize hbuild hchannel
    refine ⟨_, _, hchannel, hlaid.track_eq hslot, rfl, rfl, ?_, ?_, (hlaid.group_eq hslot).trans ?_⟩
    · simp [Slot.track, Slot.phase, Track.rowFirst]
    · simp [Slot.track, Slot.phase, Track.rowLast]
    · simp [Slot.phase, Track.rowGroup]
  · rw [hrel]
    exact Track.cutAt (length_of_mem_blocks hsize hbuild (getElem?_slots_iff.mp hslot).1).1 hs hs'

/-- The second wire on the lowest row of a device, as drawn above: the row cuts it at both ends. -/
theorem exists_cutAt_twoCuts : ∃ l c, build ⟨9, 1, 2⟩ .bidirectional [⟨"long", 4, 1⟩] = .ok l ∧
    l.channel? ⟨.horizontal, 3, 0⟩ = some c ∧
    ∃ (length start : Nat) (first last group : Nat → Nat), ∀ s, 1 ≤ s → s ≤ 9 →
      (∃ c t, l.channel? ⟨.horizontal, s, 0⟩ = some c ∧ c.track 1 = .ok t ∧ t.length = length ∧
        t.blockStart = start ∧ t.firstSeg = first s ∧ t.lastSeg = last s ∧
        c.group 1 = .ok (group s)) ∧
      Track.CutAt length ((1 - start) / 1) 0 9 first last group s :=
  ⟨_, _, by cbv, by cbv, @exists_cutAt ⟨9, 1, 2⟩ .bidirectional [⟨"long", 4, 1⟩] _ (by decide)
    (by cbv) ⟨.horizontal, 3, 0⟩ _ (by cbv) 1 (by decide)⟩

end Layout

end FpgaRouting
