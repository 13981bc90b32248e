import FpgaRouting.Proofs.Channel.Candidates

/-!
# Proofs/Channel/Admission — the candidates of a rule are the tracks it admits

      track       0   1   2   3   4   5   6   7
      wire type   ├───── 0 ─────┤ ├───── 1 ─────┤     a rule for the types 1 and 0,
      heading     ▸   ◂   ▸   ◂   ▸   ◂   ▸   ◂       the wirepoint 0 and the heading ▸
      wirepoint   0   0   1   1   0   0   0   0
      admitted    ×               ×       ×

Candidates are searched for type by type and point by point, from block to block.  Said at once, a
rule *admits* a track by its wire type, its heading and the wirepoint that a side observes of it;
**the candidates are all tracks that it admits, in ascending order** (`candidates_eq`).
-/

namespace FpgaRouting

/-! ## A wire type has one block -/

namespace Block

variable {wireType start : Nat} {ws : List WireType} {counts : List Nat} {b b' : Block}

/-- A block that ends before another starts, and whose wire type is listed earlier. -/
def Before (b b' : Block) : Prop := b.wireType < b'.wireType ∧ b.start + b.count ≤ b'.start

/-- **Blocks follow each other**, in the order of their wire types. -/
theorem pairwise_sequence (wireType start : Nat) (ws : List WireType) (counts : List Nat) :
    (sequence wireType start ws counts).Pairwise Before := by
  fun_induction sequence wireType start ws counts with
  | case1 wireType start w ws count counts ih =>
    exact List.pairwise_cons.mpr
      ⟨fun b hb => ⟨(getElem?_of_mem hb).1, start_le_of_mem hb⟩, ih⟩
  | case2 => exact List.Pairwise.nil

theorem before_or_before_of_ne (hb : b ∈ sequence wireType start ws counts)
    (hb' : b' ∈ sequence wireType start ws counts) (hne : b ≠ b') :
    b.Before b' ∨ b'.Before b := by
  have hsymm : Std.Symm fun b b' : Block => b.Before b' ∨ b'.Before b := ⟨fun _ _ => Or.symm⟩
  have hpairs : (sequence wireType start ws counts).Pairwise fun b b' =>
    b.Before b' ∨ b'.Before b := (pairwise_sequence wireType start ws counts).imp Or.inl
  exact hpairs.forall hb hb' hne

theorem eq_of_wireType_eq (hb : b ∈ sequence wireType start ws counts)
    (hb' : b' ∈ sequence wireType start ws counts) (h : b.wireType = b'.wireType) : b = b' := by
  by_contra hne
  rcases before_or_before_of_ne hb hb' hne with hbefore | hbefore
  · exact hbefore.1.ne h
  · exact hbefore.1.ne h.symm

end Block

namespace Channel

/-! ## Admission -/

/-- **Whether one end of a rule admits a track**: by its wire type, by the wirepoint that the side
observes, if points are given, and by its heading. -/
def admits (c : Channel) (side : Side) (types : List Nat) (points : Option (List Nat))
    (heading : Heading) (i : Nat) : Bool :=
  match c.track i, c.wirepoint i side with
  | .ok t, .ok wirepoint =>
    types.contains t.wireType && points.all (·.contains wirepoint) && t.heading = heading
  | _, _ => false

/-- All tracks that one end of a rule admits, in ascending order. -/
def admitted (c : Channel) (side : Side) (types : List Nat) (points : Option (List Nat))
    (heading : Heading) : List Nat :=
  (List.range c.tracks.size).filter (c.admits side types points heading)

/-- The wirepoint that a side observes of the track of a slot. -/
def seen (c : Channel) (d : Directionality) (side : Side) (s : Slot) : Nat :=
  observed (Track.groupAt s.block.length c.coord.seg (s.phase d c.coord) c.extent) s.block.length
    side

variable {ws : List WireType} {counts : List Nat} {d : Directionality} {c : Channel}

theorem length_admitted_le (c : Channel) (side : Side) (types : List Nat)
    (points : Option (List Nat)) (heading : Heading) :
    (c.admitted side types points heading).length ≤ c.tracks.size :=
  (List.length_filter_le _ _).trans_eq List.length_range

namespace Laid

variable {i wireType : Nat} {s : Slot} {side : Side} {types : List Nat}
  {points : Option (List Nat)} {heading : Heading}

/-- **A slot is admitted** by its type, its wirepoint and its heading. -/
theorem admits_iff (h : c.Laid ws counts d) :
    c.admits side types points heading i = true
      ↔ ∃ s, (slots (Block.sequence 0 0 ws counts))[i]? = some s ∧ s.block.wireType ∈ types
        ∧ (∀ ps ∈ points, c.seen d side s ∈ ps) ∧ d.heading s.rel = heading := by
  rcases hslot : (slots (Block.sequence 0 0 ws counts))[i]? with _ | s
  · have htrack : c.track i = .error .outOfRange := by
      rw [Channel.track, h.getElem?_tracks, hslot]
      rfl
    simp [admits, htrack]
  · rw [admits, h.track_eq hslot, h.wirepoint_eq hslot]
    change (types.contains s.block.wireType && points.all (·.contains (c.seen d side s))
      && decide (d.heading s.rel = heading)) = true ↔ _
    simp [Option.all_eq_true, and_assoc]

theorem lt_of_admits (h : c.Laid ws counts d)
    (hadmits : c.admits side types points heading i = true) : i < c.tracks.size := by
  obtain ⟨s, hs, -⟩ := h.admits_iff.mp hadmits
  rw [h.size_tracks]
  exact (List.getElem?_eq_some_iff.mp hs).1

theorem mem_admitted_iff (h : c.Laid ws counts d) :
    i ∈ c.admitted side types points heading ↔ c.admits side types points heading i = true := by
  rw [admitted, List.mem_filter, List.mem_range]
  exact ⟨fun hi => hi.2, fun hadmits => ⟨h.lt_of_admits hadmits, hadmits⟩⟩

/-! ## The search from block to block -/

/-- **The search finds the block of a wire type** from every block before it. -/
theorem firstOfTypeFrom?_eq (h : c.Laid ws counts d) {b : Block}
    (hb : b ∈ Block.sequence 0 0 ws counts) (hcount : 0 < b.count) {index : Nat}
    (hindex : index ≤ b.start) : c.firstOfTypeFrom? b.wireType index = some b.start := by
  have hstart : (slots (Block.sequence 0 0 ws counts))[b.start]? = some ⟨b, 0⟩ :=
    getElem?_slots_iff.mpr ⟨hb, hcount, Nat.add_comm b.start 0⟩
  fun_induction c.firstOfTypeFrom? b.wireType index with
  | case1 index hi htype =>
    obtain ⟨s, hs, htrack⟩ := h.exists_slot hi
    obtain ⟨hmem, -, hsum⟩ := getElem?_slots_iff.mp hs
    rw [htrack] at htype
    obtain rfl : s.block = b := Block.eq_of_wireType_eq hmem hb htype
    exact congrArg some (by omega)
  | case2 index hi htype hend ih =>
    obtain ⟨s, hs, htrack⟩ := h.exists_slot hi
    obtain ⟨hmem, hrel, hsum⟩ := getElem?_slots_iff.mp hs
    rw [htrack] at htype
    refine ih ?_
    rw [htrack]
    -- The block here is another one, and one that starts before `b`.
    have hne : s.block ≠ b := fun heq => htype (congrArg Block.wireType heq)
    rcases Block.before_or_before_of_ne hmem hb hne with ⟨-, hend'⟩ | ⟨-, hstart'⟩
    · exact hend'
    · omega
  | case3 index hi htype hend =>
    obtain ⟨s, hs, htrack⟩ := h.exists_slot hi
    obtain ⟨-, hrel, hsum⟩ := getElem?_slots_iff.mp hs
    rw [htrack] at hend
    exact absurd (show index < s.block.start + s.block.count by omega) hend
  | case4 index hi =>
    have hlt := (List.getElem?_eq_some_iff.mp hstart).1
    rw [← h.size_tracks] at hlt
    omega

theorem firstOfType?_eq (h : c.Laid ws counts d)
    (hs : (slots (Block.sequence 0 0 ws counts))[i]? = some s) :
    c.firstOfType? s.block.wireType = some s.block.start := by
  obtain ⟨hmem, hrel, -⟩ := getElem?_slots_iff.mp hs
  exact h.firstOfTypeFrom?_eq hmem (Nat.zero_lt_of_lt hrel) (Nat.zero_le _)

/-- **The tracks of a wire type with a heading are its slots with that heading.** -/
theorem mem_tracksOfType_iff (h : c.Laid ws counts d) :
    i ∈ c.tracksOfType wireType heading
      ↔ ∃ s, (slots (Block.sequence 0 0 ws counts))[i]? = some s ∧ s.block.wireType = wireType
        ∧ d.heading s.rel = heading := by
  constructor
  · intro hi
    obtain ⟨s, hs, htype⟩ := h.slot_of_mem_tracksOfType hi
    refine ⟨s, hs, htype, ?_⟩
    rw [tracksOfType] at hi
    split at hi
    · exact absurd hi List.not_mem_nil
    · have hheading := (List.mem_filter.mp hi).2
      rw [h.getElem?_tracks, hs] at hheading
      simpa [Slot.track] using hheading
  · rintro ⟨s, hs, rfl, hheading⟩
    obtain ⟨hmem, hrel, hsum⟩ := getElem?_slots_iff.mp hs
    have hstart : (slots (Block.sequence 0 0 ws counts))[s.block.start]? = some ⟨s.block, 0⟩ :=
      getElem?_slots_iff.mpr ⟨hmem, Nat.zero_lt_of_lt hrel, Nat.add_comm s.block.start 0⟩
    rw [tracksOfType, h.firstOfType?_eq hs]
    simp only [h.getElem?_tracks, hstart, Option.map_some, Option.getD_some]
    refine List.mem_filter.mpr ⟨List.mem_range'_1.mpr ?_, ?_⟩
    · simp only [Slot.track]
      omega
    · rw [hs]
      simpa [Slot.track] using hheading

/-! ## Type by type, point by point -/

/-- Tracks of one type are listed in ascending order. -/
theorem pairwise_tracksOfType (c : Channel) (wireType : Nat) (heading : Heading) :
    (c.tracksOfType wireType heading).Pairwise (· < ·) := by
  rw [tracksOfType]
  split
  · exact List.Pairwise.nil
  · exact (List.pairwise_lt_range' 1).filter _

/-- **The tracks of a group are all those of the type in it**, in ascending order. -/
theorem exists_tracksOfGroup (h : c.Laid ws counts d) (wireType group : Nat) (heading : Heading) :
    ∃ is, c.tracksOfGroup wireType group heading = .ok is ∧ is.Pairwise (· < ·)
      ∧ ∀ i, i ∈ is ↔ i ∈ c.tracksOfType wireType heading ∧ c.group i = .ok group := by
  have hgroups : ∀ i ∈ c.tracksOfType wireType heading, ∃ g, c.group i = .ok g := by
    intro i hi
    obtain ⟨s, hs, -⟩ := h.mem_tracksOfType_iff.mp hi
    exact ⟨_, h.group_eq hs⟩
  choose! groupOf hgroupOf using hgroups
  refine ⟨(c.tracksOfType wireType heading).filter fun i => groupOf i = group,
    Outcome.filterM_eq_ok fun i hi => ?_, (pairwise_tracksOfType c wireType heading).filter _,
    fun i => ?_⟩
  · rw [hgroupOf i hi]
    rfl
  · rw [List.mem_filter, decide_eq_true_iff]
    refine and_congr_right fun hi => ?_
    rw [hgroupOf i hi, Except.ok.injEq]

/-- **The tracks at a wirepoint are those of the group that shows it.** -/
theorem exists_tracksAtPoint (h : c.Laid ws counts d)
    (hs : (slots (Block.sequence 0 0 ws counts))[i]? = some s) {wirepoint : Nat}
    (hwirepoint : wirepoint < s.block.length) (side : Side) (heading : Heading) :
    ∃ is, (do
        let group ← groupSeen wirepoint s.block.length side
        c.tracksOfGroup s.block.wireType group heading : Outcome (List Nat)) = .ok is
      ∧ ∀ j, j ∈ is ↔ ∃ s', (slots (Block.sequence 0 0 ws counts))[j]? = some s'
        ∧ s'.block = s.block ∧ d.heading s'.rel = heading ∧ c.seen d side s' = wirepoint := by
  have hmem := (getElem?_slots_iff.mp hs).1
  obtain ⟨group, hgroup, hseen⟩ := exists_groupSeen_eq hwirepoint (h.length_bounds _ hmem).2 side
  obtain ⟨is, his, -, hmemIs⟩ := h.exists_tracksOfGroup s.block.wireType group heading
  refine ⟨is, by rw [hgroup, Outcome.liftM_ok, Outcome.ok_bind, his], fun j => ?_⟩
  rw [hmemIs, h.mem_tracksOfType_iff]
  constructor
  · rintro ⟨⟨s', hs', htype, hheading⟩, hgroup'⟩
    have hblock := Block.eq_of_wireType_eq (getElem?_slots_iff.mp hs').1 hmem htype
    rw [h.group_eq hs', Except.ok.injEq] at hgroup'
    refine ⟨s', hs', hblock, hheading, ?_⟩
    rw [seen, hgroup', hblock]
    exact (hseen group (hblock ▸ hgroup' ▸ Track.groupAt_lt (h.phase_lt hs'))).mp rfl
  · rintro ⟨s', hs', hblock, hheading, hpoint⟩
    refine ⟨⟨s', hs', congrArg Block.wireType hblock, hheading⟩, ?_⟩
    rw [h.group_eq hs', Except.ok.injEq]
    refine (hseen _ (hblock ▸ Track.groupAt_lt (h.phase_lt hs'))).mpr ?_
    rw [← hpoint, seen, hblock]

theorem seen_lt (h : c.Laid ws counts d)
    (hs : (slots (Block.sequence 0 0 ws counts))[i]? = some s) (side : Side) :
    c.seen d side s < s.block.length := by
  rw [seen, observed]
  split_ifs
  · exact Nat.mod_lt _ (Nat.zero_lt_of_lt (h.phase_lt hs))
  · exact Track.groupAt_lt (h.phase_lt hs)

/-- **The candidates of one wire type are the tracks of it that the rule admits.** -/
theorem exists_typeCandidates (h : c.Laid ws counts d) (side : Side) (points : Option (List Nat))
    (heading : Heading) (wireType : Nat) :
    ∃ is, c.typeCandidates side points heading wireType = .ok is
      ∧ ∀ i, i ∈ is ↔ c.admits side [wireType] points heading i = true := by
  simp only [h.admits_iff, List.mem_singleton]
  rw [typeCandidates]
  rcases hfirst : c.firstOfType? wireType with _ | start
  · refine ⟨[], rfl, fun i => iff_of_false List.not_mem_nil ?_⟩
    rintro ⟨s, hs, rfl, -⟩
    rw [h.firstOfType?_eq hs] at hfirst
    exact Option.some_ne_none _ hfirst
  obtain ⟨s, hs, rfl⟩ := h.slot_of_firstOfTypeFrom? hfirst
  rcases points with _ | points
  · refine ⟨_, rfl, fun i => h.mem_tracksOfType_iff.trans ?_⟩
    simp
  · have hlength : (s.track d c.coord c.extent).length = s.block.length := rfl
    have hpoint : ∀ wirepoint ∈ points.filter (· < s.block.length), ∃ is, (do
          let group ← groupSeen wirepoint s.block.length side
          c.tracksOfGroup s.block.wireType group heading : Outcome (List Nat)) = .ok is
        ∧ ∀ j, j ∈ is ↔ ∃ s', (slots (Block.sequence 0 0 ws counts))[j]? = some s'
          ∧ s'.block = s.block ∧ d.heading s'.rel = heading ∧ c.seen d side s' = wirepoint :=
      fun wirepoint hmem => h.exists_tracksAtPoint hs
        (by simpa using (List.mem_filter.mp hmem).2) side heading
    choose! at' hat hmemAt using hpoint
    refine ⟨((points.filter (· < s.block.length)).map at').flatten, ?_, fun i => ?_⟩
    · simp only [h.track_eq hs, Outcome.liftM_ok, Outcome.ok_bind, hlength]
      rw [Outcome.mapM_eq_ok hat]
      rfl
    rw [← List.flatMap_def, List.mem_flatMap]
    constructor
    · rintro ⟨wirepoint, hwirepoint, hi⟩
      obtain ⟨s', hs', hblock, hheading, rfl⟩ := (hmemAt wirepoint hwirepoint i).mp hi
      refine ⟨s', hs', congrArg Block.wireType hblock, fun ps hps => ?_, hheading⟩
      obtain rfl : points = ps := Option.some.inj hps
      exact List.mem_of_mem_filter hwirepoint
    · rintro ⟨s', hs', htype, hseen, hheading⟩
      have hblock := Block.eq_of_wireType_eq (getElem?_slots_iff.mp hs').1
        (getElem?_slots_iff.mp hs).1 htype
      have hmem : c.seen d side s' ∈ points.filter (· < s.block.length) :=
        List.mem_filter.mpr ⟨hseen points rfl, decide_eq_true (hblock ▸ h.seen_lt hs' side)⟩
      exact ⟨_, hmem, (hmemAt _ hmem i).mpr ⟨s', hs', hblock, hheading, rfl⟩⟩

/-- **The candidates of a rule are all tracks that it admits**, in ascending order. -/
theorem candidates_eq (h : c.Laid ws counts d) (side : Side) (types : List Nat)
    (points : Option (List Nat)) (heading : Heading) :
    c.candidates side types points heading = .ok (c.admitted side types points heading) := by
  have htypes := h.exists_typeCandidates side points heading
  choose ofType hofType hmemOfType using htypes
  rw [candidates, Outcome.mapM_eq_ok fun wireType _ => hofType wireType, Outcome.ok_bind]
  refine congrArg Except.ok (List.Pairwise.eq_of_mem_iff (pairwise_ascending _)
    (List.pairwise_lt_range.filter _) fun i => ?_)
  rw [mem_ascending, ← List.flatMap_def, List.mem_flatMap, h.mem_admitted_iff]
  simp only [hmemOfType, h.admits_iff, List.mem_singleton]
  constructor
  · rintro ⟨wireType, hwireType, s, hs, rfl, hrest⟩
    exact ⟨s, hs, hwireType, hrest⟩
  · rintro ⟨s, hs, hwireType, hrest⟩
    exact ⟨_, hwireType, s, hs, rfl, hrest⟩

end Laid

end Channel

/-! ## The candidates of a layout -/

namespace Channel.Laid

variable {ws : List WireType} {counts : List Nat} {d : Directionality} {c : Channel} {i : Nat}
  {side : Side} {types types' : List Nat} {points points' : Option (List Nat)} {heading : Heading}

/-- What a rule admits, said of the track and of the wirepoint that is observed. -/
theorem admits_iff_track (h : c.Laid ws counts d) :
    c.admits side types points heading i = true
      ↔ ∃ t, c.track i = .ok t ∧ t.wireType ∈ types ∧ t.heading = heading
        ∧ ∀ ps ∈ points, ∃ wirepoint ∈ ps, c.wirepoint i side = .ok wirepoint := by
  rw [h.admits_iff]
  constructor
  · rintro ⟨s, hs, htype, hpoint, hheading⟩
    exact ⟨_, h.track_eq hs, htype, hheading, fun ps hps =>
      ⟨_, hpoint ps hps, h.wirepoint_eq hs side⟩⟩
  · rintro ⟨t, ht, htype, hheading, hpoint⟩
    obtain ⟨s, hs, rfl⟩ := h.track_eq_ok_iff.mp ht
    refine ⟨s, hs, htype, fun ps hps => ?_, hheading⟩
    obtain ⟨wirepoint, hmem, hwirepoint⟩ := hpoint ps hps
    obtain rfl := Except.ok.inj ((h.wirepoint_eq hs side).symm.trans hwirepoint)
    exact hmem

/-- **Only the sets of types and points matter** to what a rule admits. -/
theorem admitted_congr (h : c.Laid ws counts d) (htypes : ∀ w, w ∈ types' ↔ w ∈ types)
    (hpoints : ∀ n, (∀ ps ∈ points', n ∈ ps) ↔ ∀ ps ∈ points, n ∈ ps) :
    c.admitted side types' points' heading = c.admitted side types points heading := by
  refine List.filter_congr fun i _ => ?_
  rw [Bool.eq_iff_iff, h.admits_iff, h.admits_iff]
  simp only [htypes, hpoints]

end Channel.Laid

namespace Layout

/-- **Candidate selection is a filter.**  In every channel of a layout within the limit, an end of a
rule has candidates, whatever types and wirepoints it names.  They are, in strictly ascending order,
all indices of tracks of a named type with the heading, which the side observes at a named
wirepoint if points are given.  Neither the order nor the repetition of types and points
matters. -/
theorem candidates_eq_filter {device : Device} {d : Directionality} {wireTypes : List WireType}
    {l : Layout} (hsize : Moderate device wireTypes) (hbuild : build device d wireTypes = .ok l)
    {p : ChannelCoord} {c : Channel} (hc : l.channel? p = some c) (side : Side) (types : List Nat)
    (points : Option (List Nat)) (heading : Heading) :
    (∃ is, c.candidates side types points heading = .ok is ∧ is.Pairwise (· < ·) ∧
      ∀ i, i ∈ is ↔ ∃ t, c.track i = .ok t ∧ t.wireType ∈ types ∧ t.heading = heading ∧
        ∀ ps ∈ points, ∃ wirepoint ∈ ps, c.wirepoint i side = .ok wirepoint) ∧
    ∀ types' points', (∀ w, w ∈ types' ↔ w ∈ types) →
      (∀ n, (∀ ps ∈ points', n ∈ ps) ↔ ∀ ps ∈ points, n ∈ ps) →
      c.candidates side types' points' heading = c.candidates side types points heading := by
  obtain ⟨hlaid, -, -⟩ := Channel.laid_of_channel? hsize hbuild hc
  refine ⟨⟨_, hlaid.candidates_eq side types points heading, List.pairwise_lt_range.filter _,
    fun i => hlaid.mem_admitted_iff.trans hlaid.admits_iff_track⟩, ?_⟩
  intro types' points' htypes hpoints
  rw [hlaid.candidates_eq, hlaid.candidates_eq, hlaid.admitted_congr htypes hpoints]

/-- Types and points that are repeated, and two that no wire has. -/
theorem candidates_eq_filter_repeated : ∃ l c,
    build ⟨3, 3, 4⟩ .unidirectional [⟨"short", 1, 1⟩, ⟨"long", 2, 1⟩] = .ok l ∧
    l.channel? ⟨.vertical, 1, 2⟩ = some c ∧
    (∃ is, c.candidates .top [1, 0, 5, 1] (some [1, 7, 1, 0]) .increasing = .ok is ∧
      is.Pairwise (· < ·)) ∧
    c.candidates .top [1, 0, 5, 1] (some [1, 7, 1, 0]) .increasing
      = c.candidates .top [0, 1, 5] (some [0, 1, 7]) .increasing ∧
    c.candidates .top [0, 1, 5] (some [0, 1, 7]) .increasing = .ok [0, 2] := by
  refine ⟨_, _, by cbv, by cbv, ?_, ?_, by cbv⟩
  · obtain ⟨⟨is, his, hascending, -⟩, -⟩ := @candidates_eq_filter ⟨3, 3, 4⟩ .unidirectional
      [⟨"short", 1, 1⟩, ⟨"long", 2, 1⟩] _ (by decide) (by cbv) ⟨.vertical, 1, 2⟩ _ (by cbv) .top
      [1, 0, 5, 1] (some [1, 7, 1, 0]) .increasing
    exact ⟨is, his, hascending⟩
  · exact (@candidates_eq_filter ⟨3, 3, 4⟩ .unidirectional
      [⟨"short", 1, 1⟩, ⟨"long", 2, 1⟩] _ (by decide) (by cbv) ⟨.vertical, 1, 2⟩ _ (by cbv) .top
      [0, 1, 5] (some [0, 1, 7]) .increasing).2 _ _ (by simp; omega) (by simp; omega)

end Layout

end FpgaRouting
