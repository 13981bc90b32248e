import FpgaRouting.Fabric
import FpgaRouting.Proofs.Channel.Candidates

/-!
# Proofs/Fabric — what an accepted fabric is

      y+1          ┌── top ──┐
                 left      right
      y            └─ bottom ┘
                   x       x+1

An accepted fabric carries the layout of its own device, and each side of a switchblock looks at
one place: **the two low sides at the tile's own channels, the other two one step further**, so the
distance of the place is that of the tile, or one more.
-/

namespace FpgaRouting

/-! ## Tiles and the places beside them -/

theorem Tile.mem_grid {width height : Nat} {t : Tile} :
    t ∈ Tile.grid width height ↔ t.x ≤ width ∧ t.y ≤ height := by
  obtain ⟨x, y⟩ := t
  simp [Tile.grid]

namespace ChannelCoord

/-- The place that a side of the switchblock at a tile looks at. -/
def beside (t : Tile) : Side → ChannelCoord
  | .top => ⟨.vertical, t.x, t.y + 1⟩
  | .right => ⟨.horizontal, t.x + 1, t.y⟩
  | .bottom => ⟨.vertical, t.x, t.y⟩
  | .left => ⟨.horizontal, t.x, t.y⟩

theorem eq_beside_of_ofSide {t : Tile} {side : Side} {c : ChannelCoord}
    (h : ofSide t side = .ok c) : c = beside t side := by
  cases side with
  | bottom | left => exact (Except.ok.inj h).symm
  | top | right =>
    obtain ⟨n, hn, hc⟩ := Outcome.bind_eq_ok_iff.mp h
    obtain ⟨-, rfl⟩ := Word.check_eq_ok_iff.mp hn
    exact (Except.ok.inj hc).symm

theorem ofSide_eq_of_lt {t : Tile} (hx : t.x + 1 < Word.count) (hy : t.y + 1 < Word.count)
    (side : Side) : ofSide t side = .ok (beside t side) := by
  cases side with
  | bottom | left => rfl
  | top => rw [ofSide, Word.add, Word.check_of_lt hy]; rfl
  | right => rw [ofSide, Word.add, Word.check_of_lt hx]; rfl

theorem ofSide_eq {t : Tile} (hx : t.x ≤ sizeLimit) (hy : t.y ≤ sizeLimit) (side : Side) :
    ofSide t side = .ok (beside t side) := by
  refine ofSide_eq_of_lt ?_ ?_ side
  · simp only [sizeLimit, Word.count] at *; omega
  · simp only [sizeLimit, Word.count] at *; omega

/-- **The distance of a place is that of the tile**, one more on the high sides. -/
theorem distance_beside (t : Tile) (side : Side) :
    (beside t side).seg + (beside t side).cross = t.x + t.y + if side.isLow then 0 else 1 := by
  cases side <;> simp only [beside, seg, cross, Side.isLow] <;> simp <;> omega

end ChannelCoord

/-- **What a side sees is laid out**, at the place beside the tile. -/
theorem Layout.laid_of_channelAt? {device : Device} {d : Directionality} {wireTypes : List WireType}
    {l : Layout} (hsize : Moderate device wireTypes) (hbuild : build device d wireTypes = .ok l)
    {t : Tile} {side : Side} {c : Channel} (hc : l.channelAt? t side = .ok (some c)) :
    c.Laid wireTypes l.counts d ∧ c.coord = ChannelCoord.beside t side
      ∧ c.extent = device.extent (ChannelCoord.beside t side).axis := by
  obtain ⟨p, hp, hchannel⟩ := Outcome.bind_eq_ok_iff.mp hc
  obtain rfl := ChannelCoord.eq_beside_of_ofSide hp
  exact Channel.laid_of_channel? hsize hbuild (Except.ok.inj hchannel)

/-! ## Sides -/

theorem SidePair.of?_eq_some (p : SidePair) : SidePair.of? p.enter p.leave = some p :=
  dif_pos p.enter_ne_leave

theorem Side.bottom_ne_left : bottom ≠ left := by decide

theorem Side.mem_all (side : Side) : side ∈ all := by cases side <;> decide

theorem SidePair.mem_all (p : SidePair) : p ∈ all :=
  List.mem_flatMap.mpr
    ⟨p.enter, p.enter.mem_all, List.mem_filterMap.mpr ⟨p.leave, p.leave.mem_all, p.of?_eq_some⟩⟩

/-! ## Acceptance -/

/-- **A rule names wire types of the device.** -/
theorem SwitchblockRecord.lt_of_wireType {s : SwitchblockRecord} {ws : List WireType}
    {name : String} {w : Nat} (h : s.wireType ws name = .ok w) : w < ws.length := by
  rw [wireType] at h
  split at h
  · next index hindex =>
    obtain rfl := Except.ok.inj h
    exact (List.findIdx?_eq_some_iff_findIdx_eq.mp hindex).1
  · simp [Outcome.refuse] at h

theorem SwitchblockRecord.lt_of_rule {s : SwitchblockRecord} {ws : List WireType}
    {record : RuleRecord} {r : Rule} (h : s.rule ws record = .ok r) :
    ∀ w ∈ r.fromTypes ++ r.toTypes, w < ws.length := by
  obtain ⟨fromTypes, hfrom, h⟩ := Outcome.bind_eq_ok_iff.mp h
  obtain ⟨toTypes, hto, h⟩ := Outcome.bind_eq_ok_iff.mp h
  obtain rfl := Except.ok.inj h
  intro w hw
  rcases List.mem_append.mp hw with hw | hw
  · obtain ⟨name, -, hname⟩ := Outcome.exists_of_mem_mapM hfrom hw
    exact lt_of_wireType hname
  · obtain ⟨name, -, hname⟩ := Outcome.exists_of_mem_mapM hto hw
    exact lt_of_wireType hname

/-- **A rule of a switchblock is resolved** from one of its record. -/
theorem SwitchblockRecord.exists_rule_of_resolve {record : SwitchblockRecord} {d : Directionality}
    {ws : List WireType} {s : Switchblock} (h : record.resolve d ws = .ok s) :
    ∀ r ∈ s.rules, ∃ rule ∈ record.rules, record.rule ws rule = .ok r := by
  rw [resolve] at h
  obtain ⟨-, h⟩ := Outcome.check_eq_ok_iff.mp h
  obtain ⟨rules, hrules, h⟩ := Outcome.bind_eq_ok_iff.mp h
  obtain ⟨permutations, -, h⟩ := Outcome.bind_eq_ok_iff.mp h
  obtain rfl := Except.ok.inj h
  intro r hr
  exact Outcome.exists_of_mem_mapM hrules hr

theorem SwitchblockRecord.lt_of_resolve {record : SwitchblockRecord} {d : Directionality}
    {ws : List WireType} {s : Switchblock} (h : record.resolve d ws = .ok s) :
    ∀ r ∈ s.rules, ∀ w ∈ r.fromTypes ++ r.toTypes, w < ws.length := by
  intro r hr
  obtain ⟨rule, -, hrule⟩ := record.exists_rule_of_resolve h r hr
  exact lt_of_rule hrule

namespace Fabric

/-- The wire types that rules name. -/
def namedTypes (f : Fabric) : List Nat :=
  (f.switchblocks.flatMap (·.rules)).flatMap fun r => r.fromTypes ++ r.toTypes

/-- A fabric whose rules name wire types of its device, and whose wires all have a length. -/
structure Resolved (f : Fabric) : Prop where
  type_lt : ∀ w ∈ f.namedTypes, w < f.wireTypes.length
  length_pos : ∀ w ∈ f.wireTypes, 0 < w.length

/-- A fabric within the limit that carries the layout of its device, and whose rules name wire types
of it. -/
structure Regular (f : Fabric) : Prop where
  moderate : Moderate f.device f.wireTypes
  build_eq : Layout.build f.device f.directionality f.wireTypes = .ok f.layout
  type_lt : ∀ w ∈ f.namedTypes, w < f.wireTypes.length

/-- **What accepting an architecture has checked and resolved.** -/
theorem accept_eq_ok {a : Architecture} {f : Fabric} (haccept : accept a = .ok f) :
    firstRepeated [] (a.wireTypes.map (·.name)) = none ∧
      a.switchblocks.mapM (·.resolve a.directionality a.wireTypes) = .ok f.switchblocks ∧
      Layout.lay a.device a.directionality a.wireTypes = .ok f.layout ∧
      f.device = a.device ∧ f.directionality = a.directionality ∧ f.wireTypes = a.wireTypes := by
  rw [accept] at haccept
  cases hrepeated : firstRepeated [] (a.wireTypes.map (·.name)) with
  | some name => simp [hrepeated, Outcome.refuse] at haccept
  | none =>
    rw [hrepeated] at haccept
    obtain ⟨switchblocks, hswitchblocks, haccept⟩ := Outcome.bind_eq_ok_iff.mp haccept
    obtain ⟨layout, hlayout, haccept⟩ := Outcome.bind_eq_ok_iff.mp haccept
    obtain rfl := Except.ok.inj haccept
    exact ⟨rfl, hswitchblocks, hlayout, rfl, rfl, rfl⟩

/-- **A build starts from what is accepted**, as soon as one list holds the tracks. -/
theorem ofArchitecture_eq_ok_iff {a : Architecture} {f : Fabric} :
    ofArchitecture a = .ok f ↔ accept a = .ok f ∧ f.layout.tracks.size < Word.half := by
  rw [ofArchitecture, Outcome.bind_eq_ok_iff]
  constructor
  · rintro ⟨g, haccept, h⟩
    obtain ⟨l, hnumber, h⟩ := Outcome.bind_eq_ok_iff.mp h
    obtain ⟨hlt, rfl⟩ := Layout.number_eq_ok_iff.mp hnumber
    obtain rfl := Except.ok.inj h
    exact ⟨haccept, hlt⟩
  · rintro ⟨haccept, hlt⟩
    exact ⟨f, haccept, Outcome.bind_eq_ok_iff.mpr
      ⟨f.layout, Layout.number_eq_ok_iff.mpr ⟨hlt, rfl⟩, rfl⟩⟩

/-- **What a build starts from.** -/
theorem ofArchitecture_eq_ok {a : Architecture} {f : Fabric} (haccept : ofArchitecture a = .ok f) :
    firstRepeated [] (a.wireTypes.map (·.name)) = none ∧
      a.switchblocks.mapM (·.resolve a.directionality a.wireTypes) = .ok f.switchblocks ∧
      Layout.build a.device a.directionality a.wireTypes = .ok f.layout ∧
      f.device = a.device ∧ f.directionality = a.directionality ∧ f.wireTypes = a.wireTypes := by
  obtain ⟨haccept, hheld⟩ := ofArchitecture_eq_ok_iff.mp haccept
  obtain ⟨hnames, hswitchblocks, hlayout, hrest⟩ := accept_eq_ok haccept
  exact ⟨hnames, hswitchblocks, Layout.build_eq_ok_iff.mpr ⟨hlayout, hheld⟩, hrest⟩

/-- **An accepted architecture of any size is resolved.** -/
theorem resolved_of_architecture {a : Architecture} {f : Fabric}
    (haccept : ofArchitecture a = .ok f) : f.Resolved := by
  obtain ⟨-, hswitchblocks, hlayout, -, -, hwireTypes⟩ := ofArchitecture_eq_ok haccept
  refine ⟨fun w hw => ?_, hwireTypes ▸ (Layout.build_eq_ok hlayout).2.1⟩
  obtain ⟨r, hr, hw⟩ := List.mem_flatMap.mp hw
  obtain ⟨s, hs, hr⟩ := List.mem_flatMap.mp hr
  obtain ⟨record, -, hrecord⟩ := Outcome.exists_of_mem_mapM hswitchblocks hs
  rw [hwireTypes]
  exact SwitchblockRecord.lt_of_resolve hrecord r hr w hw

/-- **An accepted architecture within the limit gives a regular fabric.** -/
theorem regular_of_architecture {a : Architecture} {f : Fabric}
    (haccept : ofArchitecture a = .ok f) (hsize : Moderate a.device a.wireTypes) : f.Regular := by
  obtain ⟨-, -, hlayout, hdevice, hdirectionality, hwireTypes⟩ := ofArchitecture_eq_ok haccept
  rw [← hdevice, ← hwireTypes] at hsize
  rw [← hdevice, ← hdirectionality, ← hwireTypes] at hlayout
  exact ⟨hsize, hlayout, (resolved_of_architecture haccept).type_lt⟩

theorem Regular.resolved {f : Fabric} (h : f.Regular) : f.Resolved :=
  ⟨h.type_lt, (Layout.build_eq_ok h.build_eq).2.1⟩

variable {f : Fabric}

/-- Whether the switchblock at a tile has a channel on a side. -/
def HasChannel (f : Fabric) (t : Tile) (side : Side) : Prop :=
  ∃ c, f.layout.channelAt? t side = .ok (some c)

/-- A tile off the edges of the device. -/
def Interior (f : Fabric) (t : Tile) : Prop :=
  1 ≤ t.x ∧ t.x < f.device.width ∧ 1 ≤ t.y ∧ t.y < f.device.height

/-- Whether a wire type repeats with a period: its wires are shorter than the device both ways, and
their length divides the period. -/
def Repeats (f : Fabric) (period wireType : Nat) : Prop :=
  ∀ length, f.lengthOf wireType = .ok length →
    length ∣ period ∧ length < f.device.width ∧ length < f.device.height

instance (f : Fabric) (period wireType : Nat) : Decidable (f.Repeats period wireType) :=
  match h : f.lengthOf wireType with
  | .error _ => .isTrue fun length hlength => by simp [h] at hlength
  | .ok length =>
    decidable_of_iff (length ∣ period ∧ length < f.device.width ∧ length < f.device.height)
      ⟨fun hall length' hlength => Except.ok.inj (h.symm.trans hlength) ▸ hall,
        fun hall => hall length h⟩

/-- The channels of a fabric are laid out for its wire types. -/
abbrev Laid (f : Fabric) (c : Channel) : Prop :=
  c.Laid f.wireTypes f.layout.counts f.directionality

/-- The length of a slot is that of its wire type. -/
theorem lengthOf_slot {i : Nat} {s : Slot}
    (hs : (slots (f.layout.blocks f.wireTypes))[i]? = some s) :
    f.lengthOf s.block.wireType = .ok s.block.length := by
  obtain ⟨-, w, hw, hlength⟩ := Block.getElem?_of_mem (getElem?_slots_iff.mp hs).1
  rw [lengthOf]
  rw [Nat.sub_zero] at hw
  rw [hw, ← hlength]

/-- Every side of a tile looks at a place, unless the tile is the last that a word can name. -/
theorem channelAt?_eq {t : Tile} (hx : t.x < 2 ^ 64 - 1) (hy : t.y < 2 ^ 64 - 1) (side : Side) :
    f.layout.channelAt? t side = .ok (f.layout.channel? (ChannelCoord.beside t side)) := by
  rw [Layout.channelAt?, ChannelCoord.ofSide_eq_of_lt, Outcome.ok_bind]
  · rfl
  · simp only [Word.count]; omega
  · simp only [Word.count]; omega

namespace Regular

theorem laid_of_channelAt? (h : f.Regular) {t : Tile} {side : Side} {c : Channel}
    (hc : f.layout.channelAt? t side = .ok (some c)) :
    f.Laid c ∧ c.coord = ChannelCoord.beside t side
      ∧ c.extent = f.device.extent (ChannelCoord.beside t side).axis :=
  Layout.laid_of_channelAt? h.moderate h.build_eq hc

/-- **Every channel has the tracks of the channel width.** -/
theorem size_tracks_eq (h : f.Regular) {t : Tile} {side : Side} {c : Channel}
    (hc : f.layout.channelAt? t side = .ok (some c)) : c.tracks.size = f.device.channelWidth :=
  (h.laid_of_channelAt? hc).1.size_tracks.trans
    (Layout.length_slots_blocks (Layout.lay_of_build h.build_eq))

/-- **A tile with a channel on some side is in the device.** -/
theorem mem_tiles_of_hasChannel (h : f.Regular) {t : Tile} {side : Side}
    (hside : f.HasChannel t side) : t ∈ f.tiles := by
  obtain ⟨c, hc⟩ := hside
  obtain ⟨p, hp, hchannel⟩ := Outcome.bind_eq_ok_iff.mp hc
  obtain rfl := ChannelCoord.eq_beside_of_ofSide hp
  obtain ⟨hx, hy, -⟩ := Layout.inDevice_of_channel? h.build_eq (Except.ok.inj hchannel)
  refine Tile.mem_grid.mpr ?_
  cases side <;> simp only [ChannelCoord.beside] at hx hy <;> omega

theorem lt_of_mem_tiles (h : f.Regular) {t : Tile} (ht : t ∈ f.tiles) :
    t.x < 2 ^ 64 - 1 ∧ t.y < 2 ^ 64 - 1 := by
  obtain ⟨hx, hy⟩ := Tile.mem_grid.mp ht
  have hwidth := h.moderate.width_le
  have hheight := h.moderate.height_le
  simp only [sizeLimit] at hwidth hheight
  omega

/-- **A tile off the edges has a channel on every side.** -/
theorem hasChannel_of_interior (h : f.Regular) {t : Tile} (ht : f.Interior t) (side : Side) :
    f.HasChannel t side := by
  obtain ⟨hx, hx', hy, hy'⟩ := ht
  have hwidth := h.moderate.width_le
  have hheight := h.moderate.height_le
  have hin : (ChannelCoord.beside t side).InDevice f.device.width f.device.height := by
    cases side <;> refine ⟨?_, ?_, ?_⟩ <;>
      simp only [ChannelCoord.beside, ChannelCoord.seg] <;> omega
  rw [HasChannel, Layout.channelAt?, ChannelCoord.ofSide_eq (by omega) (by omega), Outcome.ok_bind,
    Layout.channel?_eq h.moderate h.build_eq hin]
  exact ⟨_, rfl⟩

end Regular

end Fabric

end FpgaRouting
