import FpgaRouting.Channel.Layout
import FpgaRouting.Proofs.Channel.Apportionment
import FpgaRouting.Proofs.Channel.Geometry

/-!
# Proofs/Channel/Layout — every channel has the same slots

      position   0   1   2   3   4   5   6   7   8
      block      ├─ type 0 ──┤   ├──── type 1 ──────
      rel        0   1   2   3   0   1   2   3   4

A *slot* is a block and a position in it.  The slots of a channel are the same everywhere, and only
the segs that a wire covers depend on the place: **the channel at a place is the list of its slots,
each with the wire that runs there** (`channel?_eq`).
-/

namespace FpgaRouting

/-- A position in a channel: a block, and which of its tracks. -/
structure Slot where
  block : Block
  rel : Nat

/-- The slots of a channel, in order. -/
def slots (blocks : List Block) : List Slot :=
  blocks.flatMap fun b => (List.range b.count).map (⟨b, ·⟩)

namespace Slot

/-- The position of a place along the wire that has a slot there. -/
def phase (s : Slot) (d : Directionality) (c : ChannelCoord) : Nat :=
  Track.phase s.block.length (s.rel / d.tracksPerWire) c.seg c.cross

/-- The track of a slot at a place. -/
def track (s : Slot) (d : Directionality) (c : ChannelCoord) (extent : Nat) : Track where
  wireType := s.block.wireType
  length := s.block.length
  index := s.block.start + s.rel
  heading := d.heading s.rel
  firstSeg := Track.firstAt c.seg (s.phase d c)
  lastSeg := Track.lastAt s.block.length c.seg (s.phase d c) extent
  blockStart := s.block.start
  blockEnd := s.block.start + s.block.count

end Slot

/-! ## Blocks follow each other -/

namespace Block

variable {wireType start : Nat} {ws : List WireType} {counts : List Nat} {b : Block}

theorem start_le_of_mem (h : b ∈ sequence wireType start ws counts) : start ≤ b.start := by
  fun_induction sequence wireType start ws counts with
  | case1 wireType start w ws count counts ih =>
    rcases List.mem_cons.mp h with rfl | h
    · exact le_rfl
    · exact (Nat.le_add_right _ _).trans (ih h)
  | case2 => simp at h

/-- **A block belongs to a wire type**, and has its length. -/
theorem getElem?_of_mem (h : b ∈ sequence wireType start ws counts) :
    wireType ≤ b.wireType ∧ ∃ w, ws[b.wireType - wireType]? = some w ∧ w.length = b.length := by
  fun_induction sequence wireType start ws counts with
  | case1 wireType start w ws count counts ih =>
    rcases List.mem_cons.mp h with rfl | h
    · exact ⟨le_rfl, w, by simp, rfl⟩
    · obtain ⟨hle, w', hw', hlength⟩ := ih h
      refine ⟨by omega, w', ?_, hlength⟩
      rw [show b.wireType - wireType = b.wireType - (wireType + 1) + 1 by omega,
        List.getElem?_cons_succ, hw']
  | case2 => simp at h

end Block

theorem slots_cons (b : Block) (blocks : List Block) :
    slots (b :: blocks) = (List.range b.count).map (⟨b, ·⟩) ++ slots blocks := rfl

theorem length_slots {wireType start : Nat} {ws : List WireType} {counts : List Nat}
    (h : counts.length = ws.length) :
    (slots (Block.sequence wireType start ws counts)).length = counts.sum := by
  fun_induction Block.sequence wireType start ws counts with
  | case1 wireType start w ws count counts ih =>
    rw [slots_cons, List.length_append, ih (by simpa using h), List.length_map, List.length_range,
      List.sum_cons]
  | case2 ws start wireType counts hne =>
    rcases ws with _ | ⟨w, ws⟩
    · rw [List.eq_nil_of_length_eq_zero h]
      rfl
    · rcases counts with _ | ⟨count, counts⟩
      · simp at h
      · exact (hne w ws count counts rfl rfl).elim

/-- **The slots at a position**: the block there starts as many positions before it as `rel`
says. -/
theorem getElem?_slots_iff {wireType start : Nat} {ws : List WireType} {counts : List Nat}
    {i : Nat} {s : Slot} :
    (slots (Block.sequence wireType start ws counts))[i]? = some s
      ↔ s.block ∈ Block.sequence wireType start ws counts ∧ s.rel < s.block.count
        ∧ s.block.start + s.rel = start + i := by
  fun_induction Block.sequence wireType start ws counts generalizing i with
  | case1 wireType start w ws count counts ih =>
    obtain ⟨b, rel⟩ := s
    rw [slots_cons, List.mem_cons]
    rcases Nat.lt_or_ge i count with hi | hi
    · rw [List.getElem?_append_left (by simpa using hi), List.getElem?_map,
        List.getElem?_range hi]
      constructor
      · rintro ⟨⟩
        exact ⟨.inl rfl, hi, rfl⟩
      · rintro ⟨rfl | hb, hrel, hsum⟩
        · obtain rfl : rel = i := Nat.add_left_cancel hsum
          rfl
        · have hle : start + count ≤ b.start := Block.start_le_of_mem hb
          have hsum' : b.start + rel = start + i := hsum
          omega
    · rw [List.getElem?_append_right (by simpa using hi), List.length_map, List.length_range, ih]
      constructor
      · rintro ⟨hb, hrel, hsum⟩
        exact ⟨.inr hb, hrel, by simp only at hsum ⊢; omega⟩
      · rintro ⟨rfl | hb, hrel, hsum⟩
        · simp only at hsum hrel
          omega
        · exact ⟨hb, hrel, by simp only at hsum ⊢; omega⟩
  | case2 => simp [slots]

/-! ## The tracks of one channel -/

section

variable {device : Device} {d : Directionality} {c : ChannelCoord} {blocks : List Block}

theorem Block.track_eq {b : Block} {extent : Nat} (hpos : 0 < b.length)
    (hlength : b.length ≤ sizeLimit) (hseg : c.seg ≤ sizeLimit) (hcross : c.cross ≤ sizeLimit)
    (hextent : extent ≤ sizeLimit) (rel : Nat) :
    b.track d c extent rel = .ok (Slot.track ⟨b, rel⟩ d c extent) := by
  rw [Block.track, Track.span_eq hpos hlength hseg hcross hextent]
  rfl

theorem channelTracks_eq (hblocks : ∀ b ∈ blocks, 0 < b.length ∧ b.length ≤ sizeLimit)
    (hseg : c.seg ≤ sizeLimit) (hcross : c.cross ≤ sizeLimit)
    (hextent : device.extent c.axis ≤ sizeLimit) :
    channelTracks device d blocks c
      = .ok ((slots blocks).map (·.track d c (device.extent c.axis))) := by
  have htracks : ∀ b ∈ blocks, b.tracks d c (device.extent c.axis)
      = .ok ((List.range b.count).map fun rel =>
          Slot.track ⟨b, rel⟩ d c (device.extent c.axis)) := fun b hb =>
    Outcome.mapM_eq_ok fun rel _ =>
      Block.track_eq (hblocks b hb).1 (hblocks b hb).2 hseg hcross hextent rel
  rw [channelTracks, Outcome.mapM_eq_ok htracks, Outcome.ok_bind, slots, List.map_flatMap,
    List.flatMap_def]
  simp only [List.map_map, Function.comp_def]
  rfl

end

/-! ## Rows of one length -/

section

variable {α : Type} {rows : List (List α)} {row : List α} {m i : Nat}

/-- **A row is cut out of a list of rows of one length by its place.** -/
theorem take_drop_flatten (h : ∀ row ∈ rows, row.length = m) (hi : rows[i]? = some row) :
    (rows.flatten.drop (i * m)).take m = row := by
  induction rows generalizing i with
  | nil => simp at hi
  | cons first rows ih =>
    have hfirst : first.length = m := h first (by simp)
    rw [List.flatten_cons]
    cases i with
    | zero =>
      obtain rfl : first = row := by simpa using hi
      rw [Nat.zero_mul, List.drop_zero, List.take_left' hfirst]
    | succ i =>
      rw [Nat.succ_mul, Nat.add_comm, ← List.drop_drop, List.drop_left' hfirst]
      exact ih (fun row hmem => h row (by simp [hmem])) (by simpa using hi)

/-- Its members are addressed by row and column. -/
theorem getElem?_flatten {a : α} {j : Nat} (h : ∀ row ∈ rows, row.length = m)
    (hi : rows[i]? = some row) (hj : row[j]? = some a) : rows.flatten[i * m + j]? = some a := by
  have hlt : j < m := by
    rw [← h row (List.mem_of_getElem? hi)]
    exact (List.getElem?_eq_some_iff.mp hj).1
  rw [← List.getElem?_drop, ← List.getElem?_take_of_lt hlt, take_drop_flatten h hi, hj]

/-- A table is such a list. -/
theorem getElem?_table (f : Nat → Nat → α) {n x y : Nat} (hx : x < n) (hy : y < m) :
    ((List.range n).flatMap fun x => (List.range m).map (f x))[x * m + y]? = some (f x y) := by
  rw [List.flatMap_def]
  have hrow : ((List.range n).map fun x => (List.range m).map (f x))[x]?
      = some ((List.range m).map (f x)) := by
    rw [List.getElem?_map, List.getElem?_range hx]
    rfl
  refine getElem?_flatten (by simp) hrow ?_
  rw [List.getElem?_map, List.getElem?_range hy]
  rfl

end

/-- **The grid lists a channel at its rank.** -/
theorem ChannelCoord.getElem?_grid {width height : Nat} {c : ChannelCoord}
    (h : c.InDevice width height) : (grid width height)[c.rank width height]? = some c := by
  obtain ⟨axis, x, y⟩ := c
  obtain ⟨hx, hy, hseg⟩ := h
  rw [grid]
  cases axis with
  | horizontal =>
    have hx' : x - 1 + 1 = x := Nat.sub_add_cancel hseg
    have hentry := getElem?_table (fun x y => (⟨.horizontal, x + 1, y⟩ : ChannelCoord))
      (n := width) (m := height + 1) (x := x - 1) (y := y) (by simp only at hx; omega)
      (Nat.lt_succ_of_le hy)
    rw [hx'] at hentry
    rw [rank, List.getElem?_append_left (List.getElem?_eq_some_iff.mp hentry).1]
    exact hentry
  | vertical =>
    have hy' : y - 1 + 1 = y := Nat.sub_add_cancel hseg
    have hentry := getElem?_table (fun x y => (⟨.vertical, x, y + 1⟩ : ChannelCoord))
      (n := width + 1) (m := height) (x := x) (y := y - 1) (Nat.lt_succ_of_le hx)
      (by simp only at hy; omega)
    have hcount : ((List.range width).flatMap fun x => (List.range (height + 1)).map fun y =>
        (⟨.horizontal, x + 1, y⟩ : ChannelCoord)).length = width * (height + 1) := by
      simp [List.length_flatMap]
    rw [hy'] at hentry
    have hle : width * (height + 1) ≤ width * (height + 1) + (x * height + (y - 1)) :=
      Nat.le_add_right _ _
    rw [rank, Nat.add_assoc, List.getElem?_append_right (hcount ▸ hle), hcount,
      Nat.add_sub_cancel_left]
    exact hentry

/-- Nothing else is in the grid. -/
theorem ChannelCoord.inDevice_of_mem_grid {width height : Nat} {c : ChannelCoord}
    (h : c ∈ grid width height) : c.InDevice width height := by
  simp only [grid, List.mem_append, List.mem_flatMap, List.mem_map, List.mem_range] at h
  rcases h with ⟨x, hx, y, hy, rfl⟩ | ⟨x, hx, y, hy, rfl⟩
  · exact ⟨hx, Nat.le_of_lt_succ hy, Nat.le_add_left 1 x⟩
  · exact ⟨Nat.le_of_lt_succ hx, hy, Nat.le_add_left 1 y⟩

theorem ChannelCoord.length_grid (width height : Nat) :
    (grid width height).length = width * (height + 1) + (width + 1) * height := by
  simp [grid, List.length_flatMap]

/-! ## The channels of a layout -/

/-- A device and wire types within the limit. -/
structure Moderate (device : Device) (wireTypes : List WireType) : Prop where
  width_le : device.width ≤ sizeLimit
  height_le : device.height ≤ sizeLimit
  length_le : ∀ w ∈ wireTypes, w.length ≤ sizeLimit

instance (device : Device) (wireTypes : List WireType) : Decidable (Moderate device wireTypes) :=
  decidable_of_iff
    (device.width ≤ sizeLimit ∧ device.height ≤ sizeLimit ∧ ∀ w ∈ wireTypes, w.length ≤ sizeLimit)
    ⟨fun ⟨hw, hh, hl⟩ => ⟨hw, hh, hl⟩, fun ⟨hw, hh, hl⟩ => ⟨hw, hh, hl⟩⟩

theorem Moderate.extent_le {device : Device} {wireTypes : List WireType}
    (h : Moderate device wireTypes) (axis : Axis) : device.extent axis ≤ sizeLimit := by
  cases axis
  · exact h.width_le
  · exact h.height_le

theorem ChannelCoord.InDevice.seg_le {device : Device} {c : ChannelCoord}
    (h : c.InDevice device.width device.height) : c.seg ≤ device.extent c.axis := by
  obtain ⟨axis, x, y⟩ := c
  cases axis
  · exact h.1
  · exact h.2.1

theorem ChannelCoord.InDevice.cross_le {device : Device} {wireTypes : List WireType}
    {c : ChannelCoord} (h : c.InDevice device.width device.height)
    (hsize : Moderate device wireTypes) : c.cross ≤ sizeLimit := by
  obtain ⟨axis, x, y⟩ := c
  cases axis
  · exact h.2.1.trans hsize.height_le
  · exact h.1.trans hsize.width_le

section

variable {device : Device} {d : Directionality} {wireTypes : List WireType} {counts : List Nat}
  (hsize : Moderate device wireTypes) (hpos : ∀ w ∈ wireTypes, 0 < w.length)

include hsize hpos

theorem Block.length_of_mem {b : Block} (hb : b ∈ sequence 0 0 wireTypes counts) :
    0 < b.length ∧ b.length ≤ sizeLimit := by
  obtain ⟨-, w, hw, hlength⟩ := getElem?_of_mem hb
  have hmem := List.mem_of_getElem? hw
  exact ⟨hlength ▸ hpos w hmem, hlength ▸ hsize.length_le w hmem⟩

/-- **Every channel can be laid out**, whatever the numbers of tracks. -/
theorem ChannelCoord.InDevice.channelTracks_eq {c : ChannelCoord}
    (hc : c.InDevice device.width device.height) :
    channelTracks device d (Block.sequence 0 0 wireTypes counts) c
      = .ok ((slots (Block.sequence 0 0 wireTypes counts)).map
          (·.track d c (device.extent c.axis))) :=
  FpgaRouting.channelTracks_eq (fun _ hb => Block.length_of_mem hsize hpos hb)
    (hc.seg_le.trans (hsize.extent_le _)) (hc.cross_le hsize) (hsize.extent_le _)

theorem Layout.rows_eq :
    rows device d (Block.sequence 0 0 wireTypes counts)
      = .ok ((ChannelCoord.grid device.width device.height).map fun c =>
          (slots (Block.sequence 0 0 wireTypes counts)).map
            (·.track d c (device.extent c.axis))) :=
  Outcome.mapM_eq_ok fun _ hc =>
    (ChannelCoord.inDevice_of_mem_grid hc).channelTracks_eq hsize hpos

end

namespace Layout

variable {device : Device} {d : Directionality} {wireTypes : List WireType} {l : Layout}

/-- The blocks of the channels of a layout. -/
def blocks (l : Layout) (wireTypes : List WireType) : List Block :=
  Block.sequence 0 0 wireTypes l.counts

/-- **What laying out the channels has checked and placed.** -/
theorem lay_eq_ok (h : lay device d wireTypes = .ok l) :
    (0 < device.width ∧ 0 < device.height) ∧ (∀ w ∈ wireTypes, 0 < w.length) ∧
      l.device = device ∧ tracksPerType device.channelWidth wireTypes d = .ok l.counts ∧
      ∃ rs, rows device d (l.blocks wireTypes) = .ok rs ∧ l.tracks = rs.flatten.toArray := by
  rw [lay] at h
  obtain ⟨htiles, h⟩ := Outcome.check_eq_ok_iff.mp h
  cases hzero : wireTypes.find? (·.length = 0) with
  | some w => simp [hzero, Outcome.refuse] at h
  | none =>
    rw [hzero] at h
    obtain ⟨counts, hcounts, h⟩ := Outcome.bind_eq_ok_iff.mp h
    obtain ⟨-, -, h⟩ := Outcome.bind_eq_ok_iff.mp h
    obtain ⟨-, -, h⟩ := Outcome.bind_eq_ok_iff.mp h
    obtain ⟨rs, hrows, h⟩ := Outcome.bind_eq_ok_iff.mp h
    obtain rfl := Except.ok.inj h
    have hpos : ∀ w ∈ wireTypes, 0 < w.length := fun w hw =>
      Nat.pos_of_ne_zero (by simpa using List.find?_eq_none.mp hzero w hw)
    exact ⟨by omega, hpos, rfl, hcounts, rs, Outcome.liftM_eq_ok_iff.mp hrows, rfl⟩

/-- **Tracks can be numbered exactly if one list holds them**, and nothing else changes. -/
theorem number_eq_ok_iff {l' : Layout} :
    l.number = .ok l' ↔ l.tracks.size < Word.half ∧ l = l' := by
  rw [number, Outcome.bind_eq_ok_iff]
  constructor
  · rintro ⟨size, hsize, hl⟩
    have hsigned := Word.signed_of_checkSigned (Outcome.liftM_eq_ok_iff.mp hsize)
    exact ⟨Int.ofNat_lt.mp hsigned.2, Except.ok.inj hl⟩
  · rintro ⟨hlt, rfl⟩
    have hsigned : Word.Signed (l.tracks.size : Int) := ⟨by simp [Word.half], Int.ofNat_lt.mpr hlt⟩
    exact ⟨_, Outcome.liftM_eq_ok_iff.mpr (Word.checkSigned_of_signed hsigned), rfl⟩

theorem build_eq_ok_iff :
    build device d wireTypes = .ok l ↔
      lay device d wireTypes = .ok l ∧ l.tracks.size < Word.half := by
  rw [build, Outcome.bind_eq_ok_iff]
  constructor
  · rintro ⟨l', hlay, hnumber⟩
    obtain ⟨hlt, rfl⟩ := number_eq_ok_iff.mp hnumber
    exact ⟨hlay, hlt⟩
  · exact fun ⟨hlay, hlt⟩ => ⟨l, hlay, number_eq_ok_iff.mpr ⟨hlt, rfl⟩⟩

theorem lay_of_build (h : build device d wireTypes = .ok l) : lay device d wireTypes = .ok l :=
  (build_eq_ok_iff.mp h).1

/-- **What building a layout has checked and placed.** -/
theorem build_eq_ok (h : build device d wireTypes = .ok l) :
    (0 < device.width ∧ 0 < device.height) ∧ (∀ w ∈ wireTypes, 0 < w.length) ∧
      l.device = device ∧ tracksPerType device.channelWidth wireTypes d = .ok l.counts ∧
      (∃ rs, rows device d (l.blocks wireTypes) = .ok rs ∧ l.tracks = rs.flatten.toArray) ∧
      l.tracks.size < Word.half := by
  obtain ⟨hlay, hheld⟩ := build_eq_ok_iff.mp h
  obtain ⟨htiles, hpos, hdevice, hcounts, hrows⟩ := lay_eq_ok hlay
  exact ⟨htiles, hpos, hdevice, hcounts, hrows, hheld⟩

/-- A channel is a part of the list of tracks. -/
theorem size_tracks_le {p : ChannelCoord} {c : Channel} (h : l.channel? p = some c) :
    c.tracks.size ≤ l.tracks.size := by
  rw [channel?] at h
  split_ifs at h with hp
  obtain rfl := Option.some.inj h
  rw [Array.size_extract]
  omega

/-- **Every channel has as many slots as the channel width says.** -/
theorem length_slots_blocks (hlay : lay device d wireTypes = .ok l) :
    (slots (l.blocks wireTypes)).length = device.channelWidth := by
  obtain ⟨-, -, -, hcounts, -⟩ := lay_eq_ok hlay
  obtain ⟨hlength, hsum⟩ := sum_tracksPerType hcounts
  exact (length_slots hlength).trans hsum

/-- Every index of a channel has a slot, and stands as far into its block as that says. -/
theorem exists_slot (hbuild : build device d wireTypes = .ok l) {i : Nat}
    (hi : i < device.channelWidth) :
    ∃ s, (slots (l.blocks wireTypes))[i]? = some s ∧ i - s.block.start = s.rel := by
  have hslot := List.getElem?_eq_getElem ((length_slots_blocks (lay_of_build hbuild)).symm ▸ hi)
  have hsum := (getElem?_slots_iff.mp hslot).2.2
  exact ⟨_, hslot, by omega⟩

/-- A channel has its place in the device. -/
theorem inDevice_of_channel? (hbuild : build device d wireTypes = .ok l) {p : ChannelCoord}
    {c : Channel} (h : l.channel? p = some c) : p.InDevice device.width device.height := by
  obtain ⟨-, -, hdevice, -⟩ := build_eq_ok hbuild
  rw [channel?, hdevice] at h
  split_ifs at h with hp
  exact hp

/-- The tracks of a layout, channel after channel. -/
theorem tracks_eq (hsize : Moderate device wireTypes) (hlay : lay device d wireTypes = .ok l) :
    l.tracks = (((ChannelCoord.grid device.width device.height).map fun c =>
      (slots (l.blocks wireTypes)).map (·.track d c (device.extent c.axis))).flatten).toArray := by
  obtain ⟨-, hpos, -, -, rs, hrows, htracks⟩ := lay_eq_ok hlay
  rw [blocks, rows_eq hsize hpos] at hrows
  obtain rfl := Except.ok.inj hrows
  exact htracks

/-- **A layout has the tracks of its channels, and no others.** -/
theorem size_tracks_eq (hsize : Moderate device wireTypes)
    (hlay : lay device d wireTypes = .ok l) :
    l.tracks.size = l.channelCount * device.channelWidth := by
  obtain ⟨-, -, hdevice, -⟩ := lay_eq_ok hlay
  rw [tracks_eq hsize hlay, List.size_toArray, List.length_flatten, List.map_map, channelCount,
    hdevice]
  simp [Function.comp_def, length_slots_blocks hlay]

section

variable (hsize : Moderate device wireTypes) (hbuild : build device d wireTypes = .ok l)

include hsize hbuild

theorem length_of_mem_blocks {b : Block} (hb : b ∈ l.blocks wireTypes) :
    0 < b.length ∧ b.length ≤ sizeLimit := by
  obtain ⟨-, hpos, -⟩ := build_eq_ok hbuild
  exact Block.length_of_mem hsize hpos hb

/-- **A place in the device is that of a channel**, whose tracks are the slots there. -/
theorem channel?_eq {c : ChannelCoord} (hc : c.InDevice device.width device.height) :
    l.channel? c = some {
      coord := c
      extent := device.extent c.axis
      first := c.rank device.width device.height * device.channelWidth
      tracks := ((slots (l.blocks wireTypes)).map
        (·.track d c (device.extent c.axis))).toArray } := by
  obtain ⟨-, -, hdevice, -⟩ := build_eq_ok hbuild
  have hcut : l.tracks.extract (c.rank device.width device.height * device.channelWidth)
      (c.rank device.width device.height * device.channelWidth + device.channelWidth)
      = ((slots (l.blocks wireTypes)).map (·.track d c (device.extent c.axis))).toArray := by
    rw [tracks_eq hsize (lay_of_build hbuild), List.extract_toArray, List.extract_eq_take_drop,
      Nat.add_sub_cancel_left]
    refine congrArg List.toArray (take_drop_flatten ?_ ?_)
    · rw [List.forall_mem_map]
      exact fun _ _ => (List.length_map _).trans (length_slots_blocks (lay_of_build hbuild))
    · rw [List.getElem?_map, ChannelCoord.getElem?_grid hc]
      rfl
  rw [channel?, hdevice, if_pos hc]
  simp only [hcut]

end

end Layout

end FpgaRouting
