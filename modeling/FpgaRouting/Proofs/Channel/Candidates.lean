import FpgaRouting.Channel.Candidates
import FpgaRouting.Proofs.Channel.Layout

/-!
# Proofs/Channel/Candidates — two channels that offer the same tracks

Two channels of one layout have the same slots, so wire types, headings and blocks agree position by
position, and only groups tell them apart.  **Where the groups of the named types agree, a rule
finds the same candidates in both** (`candidates_congr`); and the groups of a type agree wherever
the distances of two places do, modulo the wire length (`group_congr`).
-/

namespace FpgaRouting

namespace Channel

/-- A channel that has been laid out: its tracks are the slots of the wire types at its place. -/
structure Laid (ws : List WireType) (counts : List Nat) (d : Directionality) (c : Channel) :
    Prop where
  tracks_eq : c.tracks.toList
    = (slots (Block.sequence 0 0 ws counts)).map (·.track d c.coord c.extent)
  length_bounds : ∀ b ∈ Block.sequence 0 0 ws counts, 0 < b.length ∧ b.length ≤ sizeLimit
  seg_pos : 1 ≤ c.coord.seg
  seg_le : c.coord.seg ≤ c.extent
  extent_le : c.extent ≤ sizeLimit
  size_lt : c.tracks.size < Word.half

/-- **The channels of a layout are laid out.** -/
theorem laid_of_channel? {device : Device} {d : Directionality} {wireTypes : List WireType}
    {l : Layout} (hsize : Moderate device wireTypes)
    (hbuild : Layout.build device d wireTypes = .ok l) {p : ChannelCoord} {c : Channel}
    (h : l.channel? p = some c) :
    c.Laid wireTypes l.counts d ∧ c.coord = p ∧ c.extent = device.extent p.axis := by
  obtain ⟨-, -, -, -, -, hheld⟩ := Layout.build_eq_ok hbuild
  have hpart : c.tracks.size ≤ l.tracks.size := Layout.size_tracks_le h
  have hp := Layout.inDevice_of_channel? hbuild h
  rw [Layout.channel?_eq hsize hbuild hp] at h
  obtain rfl := Option.some.inj h
  exact ⟨⟨rfl, fun b hb => Layout.length_of_mem_blocks hsize hbuild hb, hp.2.2, hp.seg_le,
    hsize.extent_le _, hpart.trans_lt hheld⟩, rfl, rfl⟩

variable {ws : List WireType} {counts : List Nat} {d : Directionality} {c c' : Channel}

namespace Laid

variable {i : Nat} {s : Slot}

theorem getElem?_tracks (h : c.Laid ws counts d) (i : Nat) :
    c.tracks[i]?
      = (slots (Block.sequence 0 0 ws counts))[i]?.map (·.track d c.coord c.extent) := by
  rw [← Array.getElem?_toList, h.tracks_eq, List.getElem?_map]

theorem size_tracks (h : c.Laid ws counts d) :
    c.tracks.size = (slots (Block.sequence 0 0 ws counts)).length := by
  rw [← Array.length_toList, h.tracks_eq, List.length_map]

theorem exists_slot (h : c.Laid ws counts d) (hi : i < c.tracks.size) :
    ∃ s, (slots (Block.sequence 0 0 ws counts))[i]? = some s
      ∧ c.tracks[i] = s.track d c.coord c.extent := by
  have hget := h.getElem?_tracks i
  rw [Array.getElem?_eq_getElem hi] at hget
  obtain ⟨s, hs, htrack⟩ := Option.map_eq_some_iff.mp hget.symm
  exact ⟨s, hs, htrack.symm⟩

theorem track_eq (h : c.Laid ws counts d)
    (hs : (slots (Block.sequence 0 0 ws counts))[i]? = some s) :
    c.track i = .ok (s.track d c.coord c.extent) := by
  rw [Channel.track, h.getElem?_tracks, hs]
  rfl

theorem phase_lt (h : c.Laid ws counts d)
    (hs : (slots (Block.sequence 0 0 ws counts))[i]? = some s) :
    s.phase d c.coord < s.block.length :=
  Track.phase_lt (h.length_bounds _ (getElem?_slots_iff.mp hs).1).1 _ _ _

/-- The tracks of a channel are its slots, and nothing else is one. -/
theorem track_eq_ok_iff (h : c.Laid ws counts d) {t : Track} :
    c.track i = .ok t
      ↔ ∃ s, (slots (Block.sequence 0 0 ws counts))[i]? = some s
        ∧ s.track d c.coord c.extent = t := by
  rw [Channel.track, h.getElem?_tracks]
  cases (slots (Block.sequence 0 0 ws counts))[i]? <;> simp

/-- **Every track has a group**: its phase, unless the wire spans the channel. -/
theorem group_eq (h : c.Laid ws counts d)
    (hs : (slots (Block.sequence 0 0 ws counts))[i]? = some s) :
    c.group i
      = .ok (Track.groupAt s.block.length c.coord.seg (s.phase d c.coord) c.extent) := by
  rw [Channel.group, h.track_eq hs, Outcome.liftM_ok, Outcome.ok_bind]
  exact Track.group_eq (h.length_bounds _ (getElem?_slots_iff.mp hs).1).2 (h.phase_lt hs)
    h.seg_pos h.seg_le h.extent_le rfl rfl

/-- **Every side observes a wirepoint of every track.** -/
theorem wirepoint_eq (h : c.Laid ws counts d)
    (hs : (slots (Block.sequence 0 0 ws counts))[i]? = some s) (side : Side) :
    c.wirepoint i side = .ok (observed
      (Track.groupAt s.block.length c.coord.seg (s.phase d c.coord) c.extent)
      s.block.length side) := by
  rw [Channel.wirepoint, h.group_eq hs, Outcome.ok_bind, h.track_eq hs, Outcome.liftM_ok,
    Outcome.ok_bind]
  rw [show (s.track d c.coord c.extent).length = s.block.length from rfl,
    wirepointSeen_eq (Track.groupAt_lt (h.phase_lt hs))
      (h.length_bounds _ (getElem?_slots_iff.mp hs).1).2]
  rfl

/-- **The group of a wire that is shorter than its channel depends on the distance alone.** -/
theorem group_congr (h : c.Laid ws counts d) (h' : c'.Laid ws counts d)
    (hs : (slots (Block.sequence 0 0 ws counts))[i]? = some s) (hlength : s.block.length < c.extent)
    (hlength' : s.block.length < c'.extent)
    (hdistance : c.coord.seg + c.coord.cross ≡ c'.coord.seg + c'.coord.cross [MOD s.block.length]) :
    c.group i = c'.group i := by
  have hphase : s.phase d c.coord = s.phase d c'.coord :=
    hdistance.add_right (s.rel / d.tracksPerWire)
  rw [h.group_eq hs, h'.group_eq hs, Track.groupAt_of_lt (h.phase_lt hs) hlength,
    Track.groupAt_of_lt (h'.phase_lt hs) hlength', hphase]

theorem wirepoint_congr (h : c.Laid ws counts d) (h' : c'.Laid ws counts d)
    (hs : (slots (Block.sequence 0 0 ws counts))[i]? = some s) (hgroup : c.group i = c'.group i)
    (side : Side) : c.wirepoint i side = c'.wirepoint i side := by
  rw [wirepoint, wirepoint, hgroup, h.track_eq hs, h'.track_eq hs]
  rfl

/-! ## The block of a wire type -/

theorem firstOfTypeFrom?_congr (h : c.Laid ws counts d) (h' : c'.Laid ws counts d)
    (wireType index : Nat) :
    c.firstOfTypeFrom? wireType index = c'.firstOfTypeFrom? wireType index := by
  have hsize : c.tracks.size = c'.tracks.size := h.size_tracks.trans h'.size_tracks.symm
  have hsame : ∀ i (hi : i < c.tracks.size) (hi' : i < c'.tracks.size),
      c'.tracks[i].wireType = c.tracks[i].wireType
        ∧ c'.tracks[i].blockEnd = c.tracks[i].blockEnd := by
    intro i hi hi'
    obtain ⟨s, hs, htrack⟩ := h.exists_slot hi
    obtain ⟨s', hs', htrack'⟩ := h'.exists_slot hi'
    obtain rfl := Option.some.inj (hs.symm.trans hs')
    rw [htrack, htrack']
    exact ⟨rfl, rfl⟩
  fun_induction c.firstOfTypeFrom? wireType index with
  | case1 index hi htype =>
    have hi' := hsize ▸ hi
    rw [firstOfTypeFrom?, dif_pos hi', if_pos ((hsame index hi hi').1.trans htype)]
  | case2 index hi htype hend ih =>
    have hi' := hsize ▸ hi
    obtain ⟨htype', hend'⟩ := hsame index hi hi'
    rw [ih, eq_comm, firstOfTypeFrom?, dif_pos hi', if_neg (htype' ▸ htype),
      if_pos (hend' ▸ hend), hend']
  | case3 index hi htype hend =>
    have hi' := hsize ▸ hi
    obtain ⟨htype', hend'⟩ := hsame index hi hi'
    rw [firstOfTypeFrom?, dif_pos hi', if_neg (htype' ▸ htype), if_neg (hend' ▸ hend)]
  | case4 index hi =>
    rw [firstOfTypeFrom?, dif_neg (hsize ▸ hi)]

/-- The search ends at a slot of the wire type. -/
theorem slot_of_firstOfTypeFrom? (h : c.Laid ws counts d) {wireType index start : Nat}
    (hstart : c.firstOfTypeFrom? wireType index = some start) :
    ∃ s, (slots (Block.sequence 0 0 ws counts))[start]? = some s
      ∧ s.block.wireType = wireType := by
  fun_induction c.firstOfTypeFrom? wireType index with
  | case1 index hi htype =>
    obtain rfl := Option.some.inj hstart
    obtain ⟨s, hs, htrack⟩ := h.exists_slot hi
    rw [htrack] at htype
    exact ⟨s, hs, htype⟩
  | case2 index hi htype hend ih => exact ih hstart
  | case3 => simp at hstart
  | case4 => simp at hstart

theorem tracksOfType_congr (h : c.Laid ws counts d) (h' : c'.Laid ws counts d) (wireType : Nat)
    (heading : Heading) : c.tracksOfType wireType heading = c'.tracksOfType wireType heading := by
  have hend : ∀ start : Nat,
      c.tracks[start]?.map (·.blockEnd) = c'.tracks[start]?.map (·.blockEnd) := by
    intro start
    rw [h.getElem?_tracks, h'.getElem?_tracks, Option.map_map, Option.map_map]
    rfl
  have hheading : ∀ index : Nat, c.tracks[index]?.any (·.heading = heading)
      = c'.tracks[index]?.any (·.heading = heading) := by
    intro index
    rw [h.getElem?_tracks, h'.getElem?_tracks, Option.any_map, Option.any_map]
    rfl
  simp only [tracksOfType, firstOfType?, firstOfTypeFrom?_congr h h', hend, hheading]

/-- **The tracks of a wire type are slots of the type.** -/
theorem slot_of_mem_tracksOfType (h : c.Laid ws counts d) {wireType index : Nat}
    {heading : Heading} (hindex : index ∈ c.tracksOfType wireType heading) :
    ∃ s, (slots (Block.sequence 0 0 ws counts))[index]? = some s
      ∧ s.block.wireType = wireType := by
  rw [tracksOfType] at hindex
  split at hindex
  · simp at hindex
  · next start hstart =>
    obtain ⟨s, hs, htype⟩ := h.slot_of_firstOfTypeFrom? hstart
    have hrange := List.mem_range'_1.mp (List.mem_of_mem_filter hindex)
    rw [h.getElem?_tracks, hs] at hrange
    simp only [Option.map_some, Option.getD_some, Slot.track] at hrange
    obtain ⟨hmem, hrel, hsum⟩ := getElem?_slots_iff.mp hs
    refine ⟨⟨s.block, index - s.block.start⟩, getElem?_slots_iff.mpr ⟨hmem, ?_, ?_⟩, htype⟩
    · change index - s.block.start < s.block.count
      omega
    · change s.block.start + (index - s.block.start) = 0 + index
      omega

/-! ## The candidates of a rule -/

/-- Two channels that a rule cannot tell apart by the groups of some wire types. -/
def Agree (ws : List WireType) (counts : List Nat) (types : List Nat) (c c' : Channel) : Prop :=
  ∀ i s, (slots (Block.sequence 0 0 ws counts))[i]? = some s → s.block.wireType ∈ types →
    c.group i = c'.group i

variable {types : List Nat} {wireType : Nat}

theorem tracksOfGroup_congr (h : c.Laid ws counts d) (h' : c'.Laid ws counts d)
    (hagree : Agree ws counts types c c') (hmem : wireType ∈ types) (group : Nat)
    (heading : Heading) :
    c.tracksOfGroup wireType group heading = c'.tracksOfGroup wireType group heading := by
  rw [tracksOfGroup, tracksOfGroup, tracksOfType_congr h h']
  refine Outcome.filterM_congr fun index hindex => ?_
  obtain ⟨s, hs, htype⟩ := h'.slot_of_mem_tracksOfType hindex
  rw [hagree index s hs (htype ▸ hmem)]

theorem typeCandidates_congr (h : c.Laid ws counts d) (h' : c'.Laid ws counts d)
    (hagree : Agree ws counts types c c') (hmem : wireType ∈ types) (side : Side)
    (points : Option (List Nat)) (heading : Heading) :
    c.typeCandidates side points heading wireType
      = c'.typeCandidates side points heading wireType := by
  have hfirst : c.firstOfType? wireType = c'.firstOfType? wireType :=
    firstOfTypeFrom?_congr h h' wireType 0
  rw [typeCandidates, typeCandidates, hfirst, tracksOfType_congr h h']
  cases hstart : c'.firstOfType? wireType with
  | none => rfl
  | some start =>
    cases points with
    | none => rfl
    | some points =>
      obtain ⟨s, hs, -⟩ := h'.slot_of_firstOfTypeFrom? hstart
      simp only [h.track_eq hs, h'.track_eq hs, tracksOfGroup_congr h h' hagree hmem]
      rfl

/-- **Channels that agree on the types of a rule offer it the same candidates.** -/
theorem candidates_congr (h : c.Laid ws counts d) (h' : c'.Laid ws counts d)
    (hagree : Agree ws counts types c c') (side : Side) (points : Option (List Nat))
    (heading : Heading) :
    c.candidates side types points heading = c'.candidates side types points heading := by
  rw [candidates, candidates, Outcome.mapM_congr fun wireType hmem =>
    typeCandidates_congr h h' hagree hmem side points heading]

end Laid

end Channel

end FpgaRouting
