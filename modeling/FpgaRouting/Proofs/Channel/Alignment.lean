import FpgaRouting.Proofs.Channel.Admission

/-!
# Proofs/Channel/Alignment — two sides see the same wires

      wire                0       1       2       3
      tracks            0 ▸ ◂ 1 2 ▸ ◂ 3 4 ▸ ◂ 5 6 ▸ ◂ 7
      admitted here  ▸  0       2               6
      admitted there ◂    1       3               7

The two tracks of a unidirectional wire are *twins*, and a bidirectional track is its own twin.
Every block is made of whole wires.  Where two sides observe each wire at one wirepoint, **what a
rule admits on the second side are therefore the twins of what it admits on the first, in the same
order** (`admitted_eq_map_twin`), if it names the same types and wirepoints at both ends.
-/

namespace FpgaRouting

/-! ## The tracks of one wire -/

namespace Directionality

variable {d : Directionality} {heading : Heading} {i j : Nat}

/-- The track with a heading on the wire of a track. -/
def twin (d : Directionality) (heading : Heading) (i : Nat) : Nat :=
  match d with
  | .bidirectional => i
  | .unidirectional => i / 2 * 2 + if heading = .increasing then 0 else 1

/-- Whether there are tracks with a heading. -/
def Runs (d : Directionality) (heading : Heading) : Prop := ∃ rel, d.heading rel = heading

theorem runs_sourceHeading (d : Directionality) (side : Side) : d.Runs (side.sourceHeading d) := by
  cases d with
  | bidirectional => exact ⟨0, rfl⟩
  | unidirectional => cases side <;> first | exact ⟨0, rfl⟩ | exact ⟨1, rfl⟩

theorem runs_destinationHeading (d : Directionality) (side : Side) :
    d.Runs (side.destinationHeading d) := by
  cases d with
  | bidirectional => exact ⟨0, rfl⟩
  | unidirectional => cases side <;> first | exact ⟨0, rfl⟩ | exact ⟨1, rfl⟩

theorem tracksPerWire_pos (d : Directionality) : 0 < d.tracksPerWire := by cases d <;> decide

/-- **A twin is on the same wire.** -/
theorem twin_div (d : Directionality) (heading : Heading) (i : Nat) :
    d.twin heading i / d.tracksPerWire = i / d.tracksPerWire := by
  cases d with
  | bidirectional => rfl
  | unidirectional =>
    rw [twin, tracksPerWire]
    split_ifs <;> omega

/-- **A wire has one track with a heading.** -/
theorem eq_twin (hwire : i / d.tracksPerWire = j / d.tracksPerWire) (h : d.heading i = heading) :
    i = d.twin heading j := by
  cases d with
  | bidirectional =>
    rw [tracksPerWire, Nat.div_one, Nat.div_one] at hwire
    exact hwire
  | unidirectional =>
    rw [tracksPerWire] at hwire
    rw [twin, ← h, Directionality.heading]
    by_cases hi : i % 2 = 0
    · rw [if_pos hi, if_pos rfl]
      omega
    · rw [if_neg hi, if_neg (show Heading.decreasing ≠ .increasing by decide)]
      omega

theorem heading_twin (h : d.Runs heading) (i : Nat) : d.heading (d.twin heading i) = heading := by
  obtain ⟨rel, rfl⟩ := h
  cases d with
  | bidirectional => rfl
  | unidirectional =>
    rw [twin, Directionality.heading, Directionality.heading]
    by_cases hrel : rel % 2 = 0
    · rw [if_pos hrel, if_pos rfl, if_pos (by omega)]
    · rw [if_neg hrel, if_neg (show Heading.decreasing ≠ .increasing by decide),
        if_neg (by omega)]

/-- **Twins stand in the order of the tracks**, if these have one heading. -/
theorem twin_lt (h : d.heading i = d.heading j) (hlt : i < j) (heading : Heading) :
    d.twin heading i < d.twin heading j := by
  cases d with
  | bidirectional => exact hlt
  | unidirectional =>
    have hparity : i % 2 = j % 2 := by
      rw [Directionality.heading, Directionality.heading] at h
      split_ifs at h <;> omega
    rw [twin, twin]
    omega

/-- Whole wires before a track change nothing about it. -/
theorem heading_add {start : Nat} (h : d.tracksPerWire ∣ start) (rel : Nat) :
    d.heading (start + rel) = d.heading rel := by
  cases d with
  | bidirectional => rfl
  | unidirectional =>
    rw [tracksPerWire] at h
    rw [Directionality.heading, Directionality.heading, show (start + rel) % 2 = rel % 2 by omega]

theorem twin_add {start : Nat} (h : d.tracksPerWire ∣ start) (heading : Heading) (rel : Nat) :
    d.twin heading (start + rel) = start + d.twin heading rel := by
  cases d with
  | bidirectional => rfl
  | unidirectional =>
    rw [tracksPerWire] at h
    rw [twin, twin]
    omega

theorem twin_lt_of_dvd {count : Nat} (h : d.tracksPerWire ∣ count) (hi : i < count)
    (heading : Heading) : d.twin heading i < count := by
  cases d with
  | bidirectional => exact hi
  | unidirectional =>
    rw [tracksPerWire] at h
    rw [twin]
    split_ifs <;> omega

end Directionality

/-- **Twins differ in index and heading only.** -/
theorem Slot.track_twin (s : Slot) (d : Directionality) (c : ChannelCoord) (extent : Nat)
    (heading : Heading) :
    Slot.track ⟨s.block, d.twin heading s.rel⟩ d c extent
      = { s.track d c extent with
          index := s.block.start + d.twin heading s.rel
          heading := d.heading (d.twin heading s.rel) } := by
  simp only [Slot.track, Slot.phase, Directionality.twin_div]

/-! ## Blocks of whole wires -/

/-- Whether every block is made of whole wires. -/
def Whole (d : Directionality) (blocks : List Block) : Prop :=
  ∀ b ∈ blocks, d.tracksPerWire ∣ b.start ∧ d.tracksPerWire ∣ b.count

theorem whole_sequence {d : Directionality} {wireType start : Nat} {ws : List WireType}
    {counts : List Nat} (hstart : d.tracksPerWire ∣ start)
    (hcounts : ∀ count ∈ counts, d.tracksPerWire ∣ count) :
    Whole d (Block.sequence wireType start ws counts) := by
  fun_induction Block.sequence wireType start ws counts with
  | case1 wireType start w ws count counts ih =>
    obtain ⟨hcount, hcounts⟩ := List.forall_mem_cons.mp hcounts
    exact List.forall_mem_cons.mpr ⟨⟨hstart, hcount⟩, ih (hstart.add hcount) hcounts⟩
  | case2 => exact List.forall_mem_nil _

/-- **The blocks of a layout are made of whole wires.** -/
theorem Layout.whole_blocks {device : Device} {d : Directionality} {wireTypes : List WireType}
    {l : Layout} (hbuild : build device d wireTypes = .ok l) : Whole d (l.blocks wireTypes) := by
  obtain ⟨-, -, -, hcounts, -⟩ := build_eq_ok hbuild
  exact whole_sequence (dvd_zero _) (dvd_of_mem_tracksPerType hcounts)

section

variable {ws : List WireType} {counts : List Nat} {d : Directionality} {i : Nat} {s : Slot}
  (hwhole : Whole d (Block.sequence 0 0 ws counts))
  (hs : (slots (Block.sequence 0 0 ws counts))[i]? = some s)

include hwhole hs

theorem heading_slot : d.heading i = d.heading s.rel := by
  obtain ⟨hmem, -, hsum⟩ := getElem?_slots_iff.mp hs
  rw [← Directionality.heading_add (hwhole _ hmem).1 s.rel, hsum, Nat.zero_add]

/-- **The twin of a track has a slot in the same block**, and on the same wire. -/
theorem getElem?_slots_twin (heading : Heading) :
    (slots (Block.sequence 0 0 ws counts))[d.twin heading i]?
      = some ⟨s.block, d.twin heading s.rel⟩ := by
  obtain ⟨hmem, hrel, hsum⟩ := getElem?_slots_iff.mp hs
  obtain ⟨hstart, hcount⟩ := hwhole _ hmem
  rw [Nat.zero_add] at hsum
  refine getElem?_slots_iff.mpr ⟨hmem, Directionality.twin_lt_of_dvd hcount hrel heading, ?_⟩
  rw [← hsum, Directionality.twin_add hstart, Nat.zero_add]

end

/-! ## Two sides that see the same -/

namespace Channel

/-- The wirepoint that is observed of a track is one of its wire. -/
theorem seen_twin (c : Channel) (d : Directionality) (side : Side) (s : Slot) (heading : Heading) :
    c.seen d side ⟨s.block, d.twin heading s.rel⟩ = c.seen d side s := by
  simp only [seen, Slot.phase, Directionality.twin_div]

/-- Two channels of one layout, and a side at each, that observe every wire at one wirepoint. -/
structure Aligned (ws : List WireType) (counts : List Nat) (d : Directionality) (c c' : Channel)
    (side side' : Side) : Prop where
  laid : c.Laid ws counts d
  laid' : c'.Laid ws counts d
  whole : Whole d (Block.sequence 0 0 ws counts)
  seen_eq : ∀ s ∈ slots (Block.sequence 0 0 ws counts), c.seen d side s = c'.seen d side' s

namespace Aligned

variable {ws : List WireType} {counts : List Nat} {d : Directionality} {c c' : Channel}
  {side side' : Side} {types types' : List Nat} {points points' : Option (List Nat)}
  {heading heading' : Heading} {i : Nat}

theorem symm (h : Aligned ws counts d c c' side side') : Aligned ws counts d c' c side' side :=
  ⟨h.laid', h.laid, h.whole, fun s hs => (h.seen_eq s hs).symm⟩

theorem heading_of_admits (h : Aligned ws counts d c c' side side')
    (hadmits : c.admits side types points heading i = true) : d.heading i = heading := by
  obtain ⟨s, hs, -, -, hheading⟩ := h.laid.admits_iff.mp hadmits
  rw [heading_slot h.whole hs, hheading]

/-- **The other side admits the twin** of a track that the first one admits. -/
theorem admits_twin (h : Aligned ws counts d c c' side side') (htypes : ∀ w ∈ types, w ∈ types')
    (hpoints : ∀ n, (∀ ps ∈ points, n ∈ ps) → ∀ ps ∈ points', n ∈ ps) (hruns : d.Runs heading')
    (hadmits : c.admits side types points heading i = true) :
    c'.admits side' types' points' heading' (d.twin heading' i) = true := by
  obtain ⟨s, hs, htype, hpoint, -⟩ := h.laid.admits_iff.mp hadmits
  refine h.laid'.admits_iff.mpr
    ⟨_, getElem?_slots_twin h.whole hs heading', htypes _ htype, ?_, d.heading_twin hruns _⟩
  rw [seen_twin, ← h.seen_eq s (List.mem_of_getElem? hs)]
  exact hpoints _ hpoint

/-- **The second end of a rule admits the twins of what the first admits**, in the same order. -/
theorem admitted_eq_map_twin (h : Aligned ws counts d c c' side side')
    (htypes : ∀ w, w ∈ types ↔ w ∈ types')
    (hpoints : ∀ n, (∀ ps ∈ points, n ∈ ps) ↔ ∀ ps ∈ points', n ∈ ps) (hruns : d.Runs heading)
    (hruns' : d.Runs heading') :
    c'.admitted side' types' points' heading'
      = (c.admitted side types points heading).map (d.twin heading') := by
  have hascending : (c.admitted side types points heading).Pairwise (· < ·) :=
    List.pairwise_lt_range.filter _
  refine List.Pairwise.eq_of_mem_iff (List.pairwise_lt_range.filter _) (r := (· < ·)) ?_ fun j => ?_
  · refine List.pairwise_map.mpr (hascending.imp_of_mem fun hi hj hlt => ?_)
    rw [h.laid.mem_admitted_iff] at hi hj
    exact d.twin_lt ((h.heading_of_admits hi).trans (h.heading_of_admits hj).symm) hlt heading'
  · rw [h.laid'.mem_admitted_iff, List.mem_map]
    simp only [h.laid.mem_admitted_iff]
    constructor
    · intro hj
      refine ⟨d.twin heading j, h.symm.admits_twin (fun w => (htypes w).mpr)
        (fun n => (hpoints n).mpr) hruns hj, ?_⟩
      exact (d.eq_twin (d.twin_div heading j).symm (h.symm.heading_of_admits hj)).symm
    · rintro ⟨i, hi, rfl⟩
      exact h.admits_twin (fun w => (htypes w).mp) (fun n => (hpoints n).mp) hruns' hi

end Aligned

end Channel

end FpgaRouting
