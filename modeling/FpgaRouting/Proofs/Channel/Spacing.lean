import FpgaRouting.Proofs.Channel.Blocks

/-!
# Proofs/Channel/Spacing — the tracks of a group are evenly spaced

      wire        0       1       2       3       4       5       6      length 3
      tracks    0 ▸ ◂ 1 2 ▸ ◂ 3 4 ▸ ◂ 5 6 ▸ ◂ 7 8 ▸ ◂ 9  …
      group       1       2       0       1       2       0       1
      group 1 ▸ 0                       6                       12       step 3 · 2

The wires of a block are staggered, so at one place their phases go up by one from wire to wire and
repeat with the length.  On wires shorter than the channel **the group is the phase**: the wires of
a group are those of one residue modulo the length (`phase_eq_iff`), and their tracks with a heading
an arithmetic progression (`tracksOfGroup_eq`).  Every residue occurs equally often among the wires
of a block, up to one wire (`tracksOfGroup_evenly_spaced`).
-/

namespace FpgaRouting

/-! ## Numbers with a residue -/

/-- How many of the numbers below `m` have the residue `r` modulo `length`. -/
def residues (m length r : Nat) : Nat := (m + (length - 1 - r)) / length

section

variable {m length r : Nat}

theorem lt_residues_iff (hr : r < length) {j : Nat} :
    j < residues m length r ↔ r + length * j < m := by
  rw [residues, ← Nat.succ_le_iff, Nat.le_div_iff_mul_le (Nat.zero_lt_of_lt hr), Nat.succ_mul,
    Nat.mul_comm j]
  omega

/-- **The numbers with a residue are an arithmetic progression.** -/
theorem lt_and_mod_eq_iff (hr : r < length) {k : Nat} :
    k < m ∧ k % length = r ↔ ∃ j < residues m length r, k = r + length * j := by
  simp only [lt_residues_iff hr]
  constructor
  · rintro ⟨hk, rfl⟩
    exact ⟨k / length, by rwa [Nat.mod_add_div], (Nat.mod_add_div k length).symm⟩
  · rintro ⟨j, hj, rfl⟩
    exact ⟨hj, by rw [Nat.add_mul_mod_self_left, Nat.mod_eq_of_lt hr]⟩

/-- **Every residue occurs equally often**, up to one. -/
theorem residues_le_succ (hpos : 0 < length) (r r' : Nat) :
    residues m length r ≤ residues m length r' + 1 := by
  calc residues m length r ≤ (m + length) / length := Nat.div_le_div_right (by omega)
    _ = m / length + 1 := Nat.add_div_right m hpos
    _ ≤ residues m length r' + 1 := Nat.succ_le_succ (Nat.div_le_div_right (Nat.le_add_right _ _))

end

/-! ## The wires of a group -/

/-- The first wire that is in phase `p` at a place. -/
def Track.firstWire (length seg cross p : Nat) : Nat :=
  (p + (length - (seg + cross) % length)) % length

/-- **The wires in a phase are those of one residue.** -/
theorem Track.phase_eq_iff {length wire seg cross p : Nat} (hp : p < length) :
    phase length wire seg cross = p ↔ wire % length = firstWire length seg cross p := by
  have hpos : 0 < length := Nat.zero_lt_of_lt hp
  have hle : (seg + cross) % length ≤ length := (Nat.mod_lt _ hpos).le
  have hsum : p + (length - (seg + cross) % length) + (seg + cross) ≡ p [MOD length] := by
    have hback :
        p + (length - (seg + cross) % length) + (seg + cross) % length ≡ p [MOD length] := by
      rw [Nat.add_assoc, Nat.sub_add_cancel hle]
      exact Nat.add_modEq_right
    exact ((Nat.mod_modEq (seg + cross) length).symm.add_left _).trans hback
  have hphase : phase length wire seg cross = p ↔ wire + (seg + cross) ≡ p [MOD length] := by
    rw [phase, Nat.add_comm wire, Nat.ModEq, Nat.mod_eq_of_lt hp]
  rw [hphase, firstWire]
  exact ⟨fun h => Nat.ModEq.add_right_cancel' _ (h.trans hsum.symm),
    fun h => (Nat.ModEq.add_right _ h).trans hsum⟩

theorem Directionality.twin_wire (d : Directionality) (heading : Heading) (wire : Nat) :
    d.twin heading (wire * d.tracksPerWire) = wire * d.tracksPerWire + d.twin heading 0 :=
  d.twin_add (Nat.dvd_mul_left _ wire) heading 0

namespace Channel.Laid

variable {ws : List WireType} {counts : List Nat} {d : Directionality} {c : Channel} {b : Block}
  {wireType group i : Nat} {heading : Heading} (h : c.Laid ws counts d)

include h

/-- The tracks of a group, said of the tracks and their groups. -/
theorem mem_group_iff_track :
    i ∈ c.tracksOfType wireType heading ∧ c.group i = .ok group
      ↔ ∃ t, c.track i = .ok t ∧ t.wireType = wireType ∧ t.heading = heading
        ∧ c.group i = .ok group := by
  rw [h.mem_tracksOfType_iff]
  constructor
  · rintro ⟨⟨s, hs, rfl, rfl⟩, hgroup⟩
    exact ⟨_, h.track_eq hs, rfl, rfl, hgroup⟩
  · rintro ⟨t, ht, rfl, rfl, hgroup⟩
    obtain ⟨s, hs, rfl⟩ := h.track_eq_ok_iff.mp ht
    exact ⟨⟨s, hs, rfl, rfl⟩, hgroup⟩

variable (hwhole : Whole d (Block.sequence 0 0 ws counts)) (hb : b ∈ Block.sequence 0 0 ws counts)
  (hshort : b.length < c.extent) (hgroup : group < b.length) (hruns : d.Runs heading)

include hwhole hb hshort hgroup hruns

/-- **The tracks of a group are those on its wires**, one with each heading. -/
theorem mem_group_iff :
    i ∈ c.tracksOfType b.wireType heading ∧ c.group i = .ok group
      ↔ ∃ wire, (wire < b.count / d.tracksPerWire ∧
          wire % b.length = Track.firstWire b.length c.coord.seg c.coord.cross group) ∧
        i = b.start + d.twin heading 0 + wire * d.tracksPerWire := by
  obtain ⟨-, hcount⟩ := hwhole b hb
  simp only [← Track.phase_eq_iff hgroup]
  constructor
  · rintro ⟨htype, hg⟩
    obtain ⟨s, hs, htype, hheading⟩ := h.mem_tracksOfType_iff.mp htype
    obtain ⟨hmem, hrel, hsum⟩ := getElem?_slots_iff.mp hs
    obtain rfl := Block.eq_of_wireType_eq hmem hb htype
    rw [h.group_eq hs, Track.groupAt_of_lt (h.phase_lt hs) hshort, Except.ok.injEq] at hg
    have hplace : s.rel = s.rel / d.tracksPerWire * d.tracksPerWire + d.twin heading 0 := by
      rw [← d.twin_wire heading]
      exact d.eq_twin (Nat.mul_div_cancel _ d.tracksPerWire_pos).symm hheading
    exact ⟨_, ⟨Nat.div_lt_div_of_lt_of_dvd hcount hrel, hg⟩, by omega⟩
  · rintro ⟨wire, ⟨hwire, hphase⟩, rfl⟩
    have hrel : d.twin heading (wire * d.tracksPerWire) < b.count :=
      d.twin_lt_of_dvd hcount
        ((Nat.lt_div_iff_mul_lt_of_dvd d.tracksPerWire_pos.ne' hcount).mp hwire) heading
    have hs : (slots (Block.sequence 0 0 ws counts))[b.start + d.twin heading 0
        + wire * d.tracksPerWire]? = some ⟨b, d.twin heading (wire * d.tracksPerWire)⟩ := by
      refine getElem?_slots_iff.mpr ⟨hb, hrel, ?_⟩
      change b.start + d.twin heading (wire * d.tracksPerWire) = _
      rw [d.twin_wire heading]
      omega
    refine ⟨h.mem_tracksOfType_iff.mpr ⟨_, hs, rfl, d.heading_twin hruns _⟩, ?_⟩
    rw [h.group_eq hs, Track.groupAt_of_lt (h.phase_lt hs) hshort, Slot.phase]
    rw [d.twin_div, Nat.mul_div_cancel _ d.tracksPerWire_pos, hphase]

/-- **The tracks of a group are an arithmetic progression.** -/
theorem tracksOfGroup_eq :
    c.tracksOfGroup b.wireType group heading = .ok (List.range'
      (b.start + d.twin heading 0
        + Track.firstWire b.length c.coord.seg c.coord.cross group * d.tracksPerWire)
      (residues (b.count / d.tracksPerWire) b.length
        (Track.firstWire b.length c.coord.seg c.coord.cross group))
      (b.length * d.tracksPerWire)) := by
  have hpos : 0 < b.length := Nat.zero_lt_of_lt hgroup
  have hfirst : Track.firstWire b.length c.coord.seg c.coord.cross group < b.length :=
    Nat.mod_lt _ hpos
  obtain ⟨is, his, hascending, hmem⟩ := h.exists_tracksOfGroup b.wireType group heading
  rw [his]
  refine congrArg Except.ok (List.Pairwise.eq_of_mem_iff hascending
    (List.pairwise_lt_range' _ (Nat.mul_pos hpos d.tracksPerWire_pos)) fun i => ?_)
  rw [hmem, h.mem_group_iff hwhole hb hshort hgroup hruns, List.mem_range']
  simp only [lt_and_mod_eq_iff hfirst]
  constructor
  · rintro ⟨wire, ⟨j, hj, rfl⟩, rfl⟩
    exact ⟨j, hj, by ring⟩
  · rintro ⟨j, hj, rfl⟩
    exact ⟨_, ⟨j, hj, rfl⟩, by ring⟩

end Channel.Laid

namespace Layout

/-- **The tracks of a group are evenly spaced.**  In every channel of a layout within the limit,
take a wire type whose wires are shorter than the channel.  The tracks of it with a heading of the
device and in a group below its length are then found, as an arithmetic progression of all indices
of such tracks, whose step is the length times the number of tracks on a wire.  For any two groups
and headings, the numbers of these tracks differ by at most one. -/
theorem tracksOfGroup_evenly_spaced {device : Device} {d : Directionality}
    {wireTypes : List WireType} {l : Layout} (hsize : Moderate device wireTypes)
    (hbuild : build device d wireTypes = .ok l) {p : ChannelCoord} {c : Channel}
    (hc : l.channel? p = some c) {w : Nat} {wt : WireType} (hw : wireTypes[w]? = some wt)
    (hshort : wt.length < c.extent) :
    ∃ first number : Nat → Heading → Nat,
      (∀ g < wt.length, ∀ heading, d.Runs heading →
        c.tracksOfGroup w g heading = .ok
          (List.range' (first g heading) (number g heading) (wt.length * d.tracksPerWire)) ∧
        ∀ i, i ∈ List.range' (first g heading) (number g heading) (wt.length * d.tracksPerWire)
          ↔ ∃ t, c.track i = .ok t ∧ t.wireType = w ∧ t.heading = heading ∧ c.group i = .ok g) ∧
      ∀ g < wt.length, ∀ g' < wt.length, ∀ heading heading', d.Runs heading → d.Runs heading' →
        number g heading ≤ number g' heading' + 1 := by
  obtain ⟨-, -, -, hcounts, -⟩ := build_eq_ok hbuild
  obtain ⟨hlaid, -, -⟩ := Channel.laid_of_channel? hsize hbuild hc
  obtain ⟨b, hb, rfl, hlength⟩ := Block.exists_mem hw (sum_tracksPerType hcounts).1
  rw [← hlength] at hshort ⊢
  refine ⟨fun g heading => b.start + d.twin heading 0
      + Track.firstWire b.length c.coord.seg c.coord.cross g * d.tracksPerWire,
    fun g _ => residues (b.count / d.tracksPerWire) b.length
      (Track.firstWire b.length c.coord.seg c.coord.cross g),
    fun g hg heading hruns => ?_,
    fun g hg _ _ _ _ _ _ => residues_le_succ (Nat.zero_lt_of_lt hg) _ _⟩
  have heq := hlaid.tracksOfGroup_eq (whole_blocks hbuild) hb hshort hg hruns
  obtain ⟨is, his, -, hmem⟩ := hlaid.exists_tracksOfGroup b.wireType g heading
  obtain rfl := Except.ok.inj (his.symm.trans heq)
  exact ⟨heq, fun i => (hmem i).trans hlaid.mem_group_iff_track⟩

/-- The seven wires drawn above. -/
theorem tracksOfGroup_evenly_spaced_sevenWires : ∃ l c,
    build ⟨4, 1, 14⟩ .unidirectional [⟨"long", 3, 1⟩] = .ok l ∧
    l.channel? ⟨.horizontal, 1, 0⟩ = some c ∧ 3 < c.extent ∧
    c.tracksOfGroup 0 1 .increasing = .ok [0, 6, 12] ∧
    ∃ first number, c.tracksOfGroup 0 1 .increasing = .ok (List.range' first number 6) := by
  refine ⟨_, _, by cbv, by cbv, by decide, by cbv, ?_⟩
  obtain ⟨first, number, hgroup, -⟩ := @tracksOfGroup_evenly_spaced ⟨4, 1, 14⟩ .unidirectional
    [⟨"long", 3, 1⟩] _ (by decide) (by cbv) ⟨.horizontal, 1, 0⟩ _ (by cbv) 0 ⟨"long", 3, 1⟩ rfl
    (by decide)
  exact ⟨_, _, (hgroup 1 (by decide) .increasing ⟨0, rfl⟩).1⟩

end Layout

end FpgaRouting
