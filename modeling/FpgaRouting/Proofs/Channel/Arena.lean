import FpgaRouting.Proofs.Channel.Blocks
import Mathlib.Data.List.AList

/-!
# Proofs/Channel/Arena — one list of tracks for all channels

      place       X(0,0)  X(1,0)   X(1,1)   …   Y(0,0)  Y(0,1)   …
      in device     –       0        1      …     –       n      …   rank
      tracks        –     0 … w-1  w … 2w-1 …     –     nw …     …   identity

A device is laid out place by place, the ring around the grid included.  A place that has a channel
gets the number of tracks so far as its *handle*, and its tracks are put behind them.  Every channel
has as many tracks, so **the handle is the rank of the place times the channel width**
(`exists_layOut`), and a view of the channel can be cut out by arithmetic alone.  As the grid has no
place twice, every track of the arena is one track of one channel (`arena_consistent`).
-/

namespace FpgaRouting

/-! ## The places, in order -/

theorem pairwise_table {α : Type} {R : α → α → Prop} {f : Nat → Nat → α} (n m : Nat)
    (hrow : ∀ x y y', y < y' → R (f x y) (f x y'))
    (hcolumn : ∀ x x' y y', x < x' → R (f x y) (f x' y')) :
    ((List.range n).flatMap fun x => (List.range m).map (f x)).Pairwise R := by
  rw [List.pairwise_flatMap]
  refine ⟨fun x _ => List.pairwise_map.mpr (List.pairwise_lt_range.imp (hrow x _ _)),
    List.pairwise_lt_range.imp fun hlt a ha b hb => ?_⟩
  obtain ⟨y, -, rfl⟩ := List.mem_map.mp ha
  obtain ⟨y', -, rfl⟩ := List.mem_map.mp hb
  exact hcolumn _ _ y y' hlt

namespace ChannelCoord

/-- The places that a device is laid out from, along one axis and then along the other: those of the
grid, and of a ring around it that has no channels. -/
def ringed (width height : Nat) : List ChannelCoord :=
  [Axis.horizontal, .vertical].flatMap fun axis =>
    (List.range (width + 2)).flatMap fun x => (List.range (height + 2)).map (⟨axis, x, ·⟩)

/-- Whether a place comes before another: by the axis, then column by column. -/
def Precedes (c c' : ChannelCoord) : Prop :=
  c.axis = .horizontal ∧ c'.axis = .vertical
    ∨ c.axis = c'.axis ∧ (c.x < c'.x ∨ c.x = c'.x ∧ c.y < c'.y)

theorem Precedes.not_symm {c c' : ChannelCoord} (h : c.Precedes c') : ¬ c'.Precedes c := by
  simp only [Precedes] at *
  grind

instance : Std.Irrefl Precedes := ⟨fun _ h => h.not_symm h⟩

instance : Std.Antisymm Precedes := ⟨fun _ _ h h' => absurd h' h.not_symm⟩

theorem pairwise_grid (width height : Nat) : (grid width height).Pairwise Precedes := by
  refine List.pairwise_append.mpr ⟨?_, ?_, fun a ha b hb => ?_⟩
  · exact pairwise_table _ _ (fun x y y' hlt => .inr ⟨rfl, .inr ⟨rfl, hlt⟩⟩)
      fun x x' y y' hlt => .inr ⟨rfl, .inl (Nat.succ_lt_succ hlt)⟩
  · exact pairwise_table _ _ (fun x y y' hlt => .inr ⟨rfl, .inr ⟨rfl, Nat.succ_lt_succ hlt⟩⟩)
      fun x x' y y' hlt => .inr ⟨rfl, .inl hlt⟩
  · simp only [List.mem_flatMap, List.mem_map] at ha hb
    obtain ⟨x, -, y, -, rfl⟩ := ha
    obtain ⟨x', -, y', -, rfl⟩ := hb
    exact .inl ⟨rfl, rfl⟩

theorem pairwise_ringed (width height : Nat) : (ringed width height).Pairwise Precedes := by
  have haxis : ∀ axis, ((List.range (width + 2)).flatMap fun x =>
      (List.range (height + 2)).map (ChannelCoord.mk axis x)).Pairwise Precedes := fun axis =>
    pairwise_table _ _ (fun x y y' hlt => .inr ⟨rfl, .inr ⟨rfl, hlt⟩⟩)
      fun x x' y y' hlt => .inr ⟨rfl, .inl hlt⟩
  rw [ringed, List.flatMap_cons, List.flatMap_singleton]
  refine List.pairwise_append.mpr ⟨haxis _, haxis _, fun a ha b hb => ?_⟩
  simp only [List.mem_flatMap, List.mem_map] at ha hb
  obtain ⟨x, -, y, -, rfl⟩ := ha
  obtain ⟨x', -, y', -, rfl⟩ := hb
  exact .inl ⟨rfl, rfl⟩

/-- **A grid has no place twice.** -/
theorem nodup_grid (width height : Nat) : (grid width height).Nodup :=
  (pairwise_grid width height).nodup

theorem mem_grid_iff {width height : Nat} {c : ChannelCoord} :
    c ∈ grid width height ↔ c.InDevice width height :=
  ⟨inDevice_of_mem_grid, fun h => List.mem_of_getElem? (getElem?_grid h)⟩

theorem mem_ringed_of_inDevice {width height : Nat} {c : ChannelCoord}
    (h : c.InDevice width height) : c ∈ ringed width height := by
  obtain ⟨axis, x, y⟩ := c
  obtain ⟨hx, hy, -⟩ := h
  simp only at hx hy
  refine List.mem_flatMap.mpr ⟨axis, by cases axis <;> simp, ?_⟩
  exact List.mem_flatMap.mpr ⟨x, List.mem_range.mpr (by omega),
    List.mem_map.mpr ⟨y, List.mem_range.mpr (by omega), rfl⟩⟩

/-- **Without the ring, the places are the grid**, in its order. -/
theorem filter_ringed (width height : Nat) :
    (ringed width height).filter (·.InDevice width height) = grid width height := by
  refine List.Pairwise.eq_of_mem_iff ((pairwise_ringed width height).filter _)
    (pairwise_grid width height) fun c => ?_
  rw [List.mem_filter, decide_eq_true_iff, mem_grid_iff]
  exact and_iff_right_of_imp mem_ringed_of_inDevice

theorem rank_lt {width height : Nat} {c : ChannelCoord} (h : c.InDevice width height) :
    c.rank width height < (grid width height).length :=
  (List.getElem?_eq_some_iff.mp (getElem?_grid h)).1

/-- **The rank of a place is its position in the grid.** -/
theorem rank_eq {width height j : Nat} {c : ChannelCoord}
    (hj : (grid width height)[j]? = some c) : c.rank width height = j := by
  have hin : c.InDevice width height := mem_grid_iff.mp (List.mem_of_getElem? hj)
  exact (List.getElem?_inj (rank_lt hin) (nodup_grid width height)).mp
    ((getElem?_grid hin).trans hj.symm)

end ChannelCoord

/-! ## Laying out -/

/-- A device in the making: the tracks so far, and the handle of each channel that has its own. -/
structure Arena where
  tracks : List Track
  handles : AList fun _ : ChannelCoord => Nat

namespace Arena

def empty : Arena := ⟨[], ∅⟩

/-- Puts a channel behind the others. -/
def push (a : Arena) (c : ChannelCoord) (ts : List Track) : Arena :=
  ⟨a.tracks ++ ts, a.handles.insert c a.tracks.length⟩

/-- Lays out the channel at a place, if the device has it. -/
def visit (device : Device) (d : Directionality) (blocks : List Block) (a : Arena)
    (c : ChannelCoord) : Except Fault Arena :=
  if c.InDevice device.width device.height then do
    return a.push c (← channelTracks device d blocks c)
  else .ok a

/-- Lays out a device, place by place. -/
def layOut (device : Device) (d : Directionality) (blocks : List Block) : Except Fault Arena :=
  (ChannelCoord.ringed device.width device.height).foldlM (visit device d blocks) empty

/-- An arena with channels of given tracks behind those it has. -/
def extend (row : ChannelCoord → List Track) (a : Arena) (cs : List ChannelCoord) : Arena :=
  cs.foldl (fun a c => a.push c (row c)) a

section

variable {row : ChannelCoord → List Track} {a : Arena} {cs : List ChannelCoord} {c : ChannelCoord}

@[simp] theorem extend_nil : extend row a [] = a := rfl

theorem extend_cons : extend row a (c :: cs) = extend row (a.push c (row c)) cs := rfl

theorem tracks_extend : (extend row a cs).tracks = a.tracks ++ (cs.map row).flatten := by
  induction cs generalizing a with
  | nil => simp
  | cons c cs ih =>
    rw [extend_cons, ih, push, List.append_assoc, List.map_cons, List.flatten_cons]

theorem mem_handles_extend_iff : c ∈ (extend row a cs).handles ↔ c ∈ cs ∨ c ∈ a.handles := by
  induction cs generalizing a with
  | nil => simp
  | cons c' cs ih =>
    rw [extend_cons, ih, push, AList.mem_insert, List.mem_cons]
    tauto

/-- Later channels leave a handle as it is. -/
theorem lookup_extend_of_notMem (hc : c ∉ cs) :
    (extend row a cs).handles.lookup c = a.handles.lookup c := by
  induction cs generalizing a with
  | nil => rfl
  | cons c' cs ih =>
    rw [extend_cons, ih (List.not_mem_of_not_mem_cons hc), push,
      AList.lookup_insert_ne (List.ne_of_not_mem_cons hc)]

/-- **A channel starts behind the tracks of the channels before it.** -/
theorem lookup_extend {m j : Nat} (hrow : ∀ c ∈ cs, (row c).length = m) (hnodup : cs.Nodup)
    (hj : cs[j]? = some c) :
    (extend row a cs).handles.lookup c = some (a.tracks.length + j * m) := by
  induction cs generalizing a j with
  | nil => simp at hj
  | cons c' cs ih =>
    obtain ⟨hlength, hrow⟩ := List.forall_mem_cons.mp hrow
    obtain ⟨hnew, hnodup⟩ := List.nodup_cons.mp hnodup
    rw [extend_cons]
    cases j with
    | zero =>
      obtain rfl : c' = c := by simpa using hj
      rw [lookup_extend_of_notMem hnew, push, AList.lookup_insert, Nat.zero_mul, Nat.add_zero]
    | succ j =>
      rw [ih hrow hnodup (by simpa using hj), push, List.length_append, hlength, Nat.succ_mul,
        Nat.add_assoc, Nat.add_comm m]

end

/-- **Going through places puts the channels among them behind each other.** -/
theorem foldlM_visit {device : Device} {d : Directionality} {blocks : List Block}
    {row : ChannelCoord → List Track}
    (hrow : ∀ c, c.InDevice device.width device.height →
      channelTracks device d blocks c = .ok (row c)) (cs : List ChannelCoord) (a : Arena) :
    cs.foldlM (visit device d blocks) a
      = .ok (extend row a (cs.filter (·.InDevice device.width device.height))) := by
  induction cs generalizing a with
  | nil => rfl
  | cons c cs ih =>
    rw [List.foldlM_cons, visit, List.filter_cons]
    by_cases hc : c.InDevice device.width device.height
    · rw [if_pos hc, if_pos (decide_eq_true hc), hrow c hc]
      exact ih _
    · rw [if_neg hc, if_neg (by simpa using hc)]
      exact ih a

end Arena

/-! ## The arena of a layout -/

namespace Layout

variable {device : Device} {d : Directionality} {wireTypes : List WireType} {l : Layout}

section

variable {p : ChannelCoord} {c : Channel} {i id : Nat} (hsize : Moderate device wireTypes)
  (hbuild : build device d wireTypes = .ok l)

include hsize hbuild

/-- **Laying out place by place gives the tracks of the layout, and each channel its handle.** -/
theorem exists_layOut :
    ∃ a, Arena.layOut device d (l.blocks wireTypes) = .ok a ∧ a.tracks = l.tracks.toList ∧
      a.handles.keys.length = l.channelCount ∧
      ∀ p, a.handles.lookup p = (l.channel? p).map (·.first) := by
  obtain ⟨-, hpos, hdevice, -⟩ := build_eq_ok hbuild
  have hrow : ∀ c, c.InDevice device.width device.height →
      channelTracks device d (l.blocks wireTypes) c
        = .ok ((slots (l.blocks wireTypes)).map (·.track d c (device.extent c.axis))) :=
    fun c hc => hc.channelTracks_eq hsize hpos
  have hlength : ∀ c ∈ ChannelCoord.grid device.width device.height,
      ((slots (l.blocks wireTypes)).map (·.track d c (device.extent c.axis))).length
        = device.channelWidth :=
    fun c _ => (List.length_map _).trans (length_slots_blocks (lay_of_build hbuild))
  refine ⟨_, Arena.foldlM_visit hrow _ _, ?_, ?_, fun p => ?_⟩
  · rw [ChannelCoord.filter_ringed, Arena.tracks_extend, tracks_eq hsize (lay_of_build hbuild)]
    rfl
  · have hnodup := ChannelCoord.nodup_grid device.width device.height
    rw [channelCount, hdevice, ChannelCoord.filter_ringed]
    refine ((List.perm_ext_iff_of_nodup (AList.keys_nodup _) hnodup).mpr fun p => ?_).length_eq
    rw [← AList.mem_keys, Arena.mem_handles_extend_iff]
    simp [Arena.empty]
  · rw [ChannelCoord.filter_ringed]
    by_cases hp : p.InDevice device.width device.height
    · rw [Arena.lookup_extend hlength (ChannelCoord.nodup_grid _ _) (ChannelCoord.getElem?_grid hp),
        channel?_eq hsize hbuild hp]
      simp [Arena.empty]
    · rw [Arena.lookup_extend_of_notMem fun hmem => hp (ChannelCoord.mem_grid_iff.mp hmem),
        channel?, hdevice, if_neg hp]
      simp [Arena.empty]

/-! ## Identities -/

theorem size_channel_tracks (hc : l.channel? p = some c) : c.tracks.size = device.channelWidth := by
  obtain ⟨hlaid, -, -⟩ := Channel.laid_of_channel? hsize hbuild hc
  exact hlaid.size_tracks.trans (length_slots_blocks (lay_of_build hbuild))

/-- An identity below the size of the arena. -/
theorem identity_lt (hp : p.InDevice device.width device.height) (hi : i < device.channelWidth) :
    p.rank device.width device.height * device.channelWidth + i < l.tracks.size := by
  obtain ⟨-, -, hdevice, -⟩ := build_eq_ok hbuild
  have hrank := ChannelCoord.rank_lt hp
  rw [size_tracks_eq hsize (lay_of_build hbuild), channelCount, hdevice]
  calc p.rank device.width device.height * device.channelWidth + i
      < (p.rank device.width device.height + 1) * device.channelWidth := by
        rw [Nat.succ_mul]; omega
    _ ≤ _ := Nat.mul_le_mul_right _ hrank

/-- **An identity is the rank of the channel and the position in it.** -/
theorem identity_eq (hc : l.channel? p = some c) (hi : i < device.channelWidth) :
    c.identity i = .ok (p.rank device.width device.height * device.channelWidth + i) := by
  obtain ⟨-, -, -, -, -, hheld⟩ := build_eq_ok hbuild
  have hp := inDevice_of_channel? hbuild hc
  have hlt := identity_lt hsize hbuild hp hi
  rw [channel?_eq hsize hbuild hp] at hc
  obtain rfl := Option.some.inj hc
  exact Word.check_of_lt (hlt.trans (hheld.trans (by decide)))

/-- **An identity leads to the track that it was given for.** -/
theorem track_identity (hc : l.channel? p = some c) (hi : i < device.channelWidth) :
    l.track (p.rank device.width device.height * device.channelWidth + i) = c.track i := by
  obtain ⟨-, -, hdevice, -⟩ := build_eq_ok hbuild
  have hp := inDevice_of_channel? hbuild hc
  have hlt := identity_lt hsize hbuild hp hi
  rw [channel?, hdevice, if_pos hp] at hc
  obtain rfl := Option.some.inj hc
  rw [track, Channel.track]
  simp only [Array.getElem?_extract]
  rw [if_pos (by omega)]

/-- **Every track of the arena is one track of one channel.** -/
theorem existsUnique_identity (hid : id < l.tracks.size) :
    ∃! q : ChannelCoord × Nat,
      q.2 < device.channelWidth ∧ ∃ c, l.channel? q.1 = some c ∧ c.identity q.2 = .ok id := by
  obtain ⟨-, -, hdevice, -⟩ := build_eq_ok hbuild
  rw [size_tracks_eq hsize (lay_of_build hbuild), channelCount, hdevice, Nat.mul_comm] at hid
  have hwidth : 0 < device.channelWidth := Nat.pos_of_mul_pos_right (Nat.zero_lt_of_lt hid)
  have hcolumn : id % device.channelWidth < device.channelWidth := Nat.mod_lt _ hwidth
  have hplace := List.getElem?_eq_getElem (Nat.div_lt_of_lt_mul hid)
  have hin := ChannelCoord.mem_grid_iff.mp (List.mem_of_getElem? hplace)
  refine ⟨⟨_, id % device.channelWidth⟩, ⟨hcolumn, _, channel?_eq hsize hbuild hin, ?_⟩, ?_⟩
  · rw [identity_eq hsize hbuild (channel?_eq hsize hbuild hin) hcolumn,
      ChannelCoord.rank_eq hplace, Nat.div_add_mod']
  · rintro ⟨p, i⟩ ⟨hi, c, hc, hidentity⟩
    rw [identity_eq hsize hbuild hc hi, Except.ok.injEq] at hidentity
    have hsum : i + device.channelWidth * p.rank device.width device.height = id := by
      rw [Nat.add_comm, Nat.mul_comm, hidentity]
    obtain ⟨hrow, rfl⟩ := (Nat.div_mod_unique hwidth).mpr ⟨hsum, hi⟩
    have hp := ChannelCoord.getElem?_grid (inDevice_of_channel? hbuild hc)
    rw [← hrow, hplace] at hp
    obtain rfl := Option.some.inj hp
    rfl

end

/-- **Channels and arena are consistent.**  On a layout within the limit, the arena is what laying
out place by place gives, with a handle for each channel.  There is a channel exactly at each place
in the device, `nx * (ny + 1) + (nx + 1) * ny` of them in all.  Each has the tracks of the channel
width, in blocks with the numbers of tracks per wire type, and each of them has an identity that
leads to it in the arena.  Every identity of the arena is that of one position in one channel. -/
theorem arena_consistent (hsize : Moderate device wireTypes)
    (hbuild : build device d wireTypes = .ok l) :
    (∃ a, Arena.layOut device d (l.blocks wireTypes) = .ok a ∧ a.tracks = l.tracks.toList ∧
      a.handles.keys.length = l.channelCount ∧
      ∀ p, a.handles.lookup p = (l.channel? p).map (·.first)) ∧
    (∀ p, (∃ c, l.channel? p = some c) ↔ p.InDevice device.width device.height) ∧
    l.channelCount = device.width * (device.height + 1) + (device.width + 1) * device.height ∧
    tracksPerType device.channelWidth wireTypes d = .ok l.counts ∧
    (∀ p c, l.channel? p = some c →
      c.tracks.size = device.channelWidth ∧ c.InBlocks wireTypes l.counts d ∧
      ∀ i < device.channelWidth, ∃ id < l.tracks.size, ∃ t,
        c.identity i = .ok id ∧ l.track id = .ok t ∧ c.track i = .ok t) ∧
    ∀ id < l.tracks.size, ∃! q : ChannelCoord × Nat,
      q.2 < device.channelWidth ∧ ∃ c, l.channel? q.1 = some c ∧ c.identity q.2 = .ok id := by
  obtain ⟨-, -, hdevice, hcounts, -⟩ := build_eq_ok hbuild
  refine ⟨exists_layOut hsize hbuild, fun p => ⟨?_, fun hp => ⟨_, channel?_eq hsize hbuild hp⟩⟩,
    ?_, hcounts, fun p c hc => ?_, fun id hid => existsUnique_identity hsize hbuild hid⟩
  · rintro ⟨c, hc⟩
    exact inDevice_of_channel? hbuild hc
  · rw [channelCount, hdevice, ChannelCoord.length_grid]
  · obtain ⟨hlaid, -, -⟩ := Channel.laid_of_channel? hsize hbuild hc
    have hwidth := size_channel_tracks hsize hbuild hc
    refine ⟨hwidth, hlaid.inBlocks (whole_blocks hbuild), fun i hi => ?_⟩
    obtain ⟨t, ht, -⟩ := hlaid.exists_standsAt (hwidth.symm ▸ hi)
    exact ⟨_, identity_lt hsize hbuild (inDevice_of_channel? hbuild hc) hi, t,
      identity_eq hsize hbuild hc hi, (track_identity hsize hbuild hc hi).trans ht, ht⟩

/-- A device of seven channels, whose second wire type gets no tracks: the search for the third one
passes it by. -/
theorem arena_consistent_sevenChannels : ∃ l c,
    build ⟨2, 1, 4⟩ .unidirectional [⟨"short", 1, 1⟩, ⟨"unused", 3, 0⟩, ⟨"long", 2, 1⟩] = .ok l ∧
    l.channelCount = 7 ∧ l.channel? ⟨.vertical, 1, 1⟩ = some c ∧
    c.Search 2 0 (some 2) ∧ c.Search 1 0 none ∧ c.identity 3 = .ok 23 ∧ l.track 23 = c.track 3 := by
  have h := @arena_consistent ⟨2, 1, 4⟩ .unidirectional
    [⟨"short", 1, 1⟩, ⟨"unused", 3, 0⟩, ⟨"long", 2, 1⟩] _ (by decide) (by cbv)
  refine ⟨_, _, by cbv, h.2.2.1, by cbv, ?_, ?_, by cbv, by cbv⟩
  · exact ((h.2.2.2.2.1 ⟨.vertical, 1, 1⟩ _ (by cbv)).2.1.search_iff 2 _).mpr (by cbv)
  · exact ((h.2.2.2.2.1 ⟨.vertical, 1, 1⟩ _ (by cbv)).2.1.search_iff 1 _).mpr (by cbv)

end Layout

end FpgaRouting
