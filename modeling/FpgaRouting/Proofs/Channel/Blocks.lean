import FpgaRouting.Proofs.Channel.Alignment

/-!
# Proofs/Channel/Blocks — where the block of a wire type lies

      wire type    0           1           2
      count        4           0           5
      position     0  1  2  3              4  5  6  7  8
      search for 2 ●──────────────────────▸●

The counts say where a block lies: it starts at the sum of the counts before it and ends at the sum
with its own.  Each track carries these two bounds, and with them the search for a wire type jumps
from block to block.  A bound that is not behind the search would keep it in place for ever; but
**every track stands before the end of its block**, so the search goes on, passes the empty blocks
by, and finds the least position of the type (`firstOfType?_eq_some_iff`).
-/

namespace FpgaRouting

/-! ## The bounds of a block -/

theorem sum_take_mono (counts : List Nat) {k k' : Nat} (h : k ≤ k') :
    (counts.take k).sum ≤ (counts.take k').sum :=
  (List.take_sublist_take_left h).sum_le_sum fun _ _ => Nat.zero_le _

namespace Block

variable {wireType start k : Nat} {ws : List WireType} {counts : List Nat} {b : Block}

/-- **The block of a wire type, from the counts.** -/
theorem getElem?_sequence_iff :
    (sequence wireType start ws counts)[k]? = some b
      ↔ ∃ w count, ws[k]? = some w ∧ counts[k]? = some count
        ∧ b = ⟨wireType + k, w.length, start + (counts.take k).sum, count⟩ := by
  fun_induction sequence wireType start ws counts generalizing k with
  | case1 wireType start w ws count counts ih =>
    cases k with
    | zero => simp [eq_comm]
    | succ k =>
      simp only [List.getElem?_cons_succ, ih, List.take_succ_cons, List.sum_cons, ← Nat.add_assoc,
        Nat.add_right_comm wireType 1 k]
  | case2 ws start wireType counts hne =>
    rcases ws with _ | ⟨w, ws⟩
    · simp
    · rcases counts with _ | ⟨count, counts⟩
      · simp
      · exact (hne w ws count counts rfl rfl).elim

theorem mem_sequence_iff :
    b ∈ sequence 0 0 ws counts
      ↔ (∃ w, ws[b.wireType]? = some w ∧ w.length = b.length) ∧ counts[b.wireType]? = some b.count
        ∧ b.start = (counts.take b.wireType).sum := by
  rw [List.mem_iff_getElem?]
  simp only [getElem?_sequence_iff, Nat.zero_add]
  constructor
  · rintro ⟨k, w, count, hw, hcount, rfl⟩
    exact ⟨⟨w, hw, rfl⟩, hcount, rfl⟩
  · rintro ⟨⟨w, hw, hlength⟩, hcount, hstart⟩
    exact ⟨_, w, _, hw, hcount, by rw [hlength, ← hstart]⟩

/-- Every wire type has a block, if there is a count for each. -/
theorem exists_mem {w : WireType} (hw : ws[k]? = some w) (hlength : counts.length = ws.length) :
    ∃ b ∈ sequence 0 0 ws counts, b.wireType = k ∧ b.length = w.length := by
  have hk : k < counts.length := hlength ▸ (List.getElem?_eq_some_iff.mp hw).1
  refine ⟨⟨k, w.length, (counts.take k).sum, counts[k]⟩, ?_, rfl, rfl⟩
  exact mem_sequence_iff.mpr ⟨⟨w, hw, rfl⟩, List.getElem?_eq_getElem hk, rfl⟩

/-- **A block ends at the sum of the counts up to its own.** -/
theorem stop_eq_of_mem (hb : b ∈ sequence 0 0 ws counts) :
    b.start + b.count = (counts.take (b.wireType + 1)).sum := by
  obtain ⟨-, hcount, hstart⟩ := mem_sequence_iff.mp hb
  rw [List.take_add_one, hcount, List.sum_append, hstart]
  simp

end Block

/-! ## What stands at a position -/

/-- **What stands at a position of a channel**: a track with that index, between the bounds of the
block of its wire type. -/
structure Track.StandsAt (wireTypes : List WireType) (counts : List Nat) (i : Nat) (t : Track) :
    Prop where
  index_eq : t.index = i
  length_eq : wireTypes[t.wireType]?.map (·.length) = some t.length
  blockStart_eq : t.blockStart = (counts.take t.wireType).sum
  blockEnd_eq : t.blockEnd = (counts.take (t.wireType + 1)).sum
  wireType_iff : ∀ w, t.wireType = w ↔ (counts.take w).sum ≤ i ∧ i < (counts.take (w + 1)).sum

namespace Channel

/-- The search for a wire type from a position on, block by block, and what it ends with. -/
inductive Search (c : Channel) (wireType : Nat) : Nat → Option Nat → Prop
  | past {i : Nat} (hi : c.tracks.size ≤ i) : Search c wireType i none
  | found {i : Nat} {t : Track} (ht : c.track i = .ok t) (htype : t.wireType = wireType) :
      Search c wireType i (some i)
  | jump {i : Nat} {t : Track} {result : Option Nat} (ht : c.track i = .ok t)
      (htype : t.wireType ≠ wireType) (hrest : Search c wireType t.blockEnd result) :
      Search c wireType i result

/-- **A channel in blocks.**  At every position stands a track of it; on a unidirectional device the
tracks come in pairs, one wire in both headings; and the search for a wire type ends with the first
track of the type, or without one if there is none. -/
structure InBlocks (wireTypes : List WireType) (counts : List Nat) (d : Directionality)
    (c : Channel) : Prop where
  stands : ∀ i < c.tracks.size, ∃ t, c.track i = .ok t ∧ t.StandsAt wireTypes counts i
  pairs : d = .unidirectional → ∀ q, 2 * q < c.tracks.size →
    ∃ t, c.track (2 * q) = .ok t ∧ t.heading = .increasing ∧
      c.track (2 * q + 1) = .ok { t with index := 2 * q + 1, heading := .decreasing }
  search_iff : ∀ w result, c.Search w 0 result ↔ result = c.firstOfType? w
  first_iff : ∀ w i, c.firstOfType? w = some i
    ↔ IsLeast {j | ∃ t, c.track j = .ok t ∧ t.wireType = w} i
  none_iff : ∀ w, c.firstOfType? w = none ↔ ∀ j t, c.track j = .ok t → t.wireType ≠ w

theorem track_of_lt {c : Channel} {i : Nat} (hi : i < c.tracks.size) :
    c.track i = .ok c.tracks[i] := by
  rw [track, Array.getElem?_eq_getElem hi]

theorem lt_of_track {c : Channel} {i : Nat} {t : Track} (ht : c.track i = .ok t) :
    i < c.tracks.size := by
  by_contra hi
  rw [track, Array.getElem?_eq_none (Nat.not_lt.mp hi)] at ht
  simp at ht

/-- **A search ends with one result.** -/
theorem Search.unique {c : Channel} {wireType i : Nat} {r r' : Option Nat}
    (h : c.Search wireType i r) (h' : c.Search wireType i r') : r = r' := by
  induction h with
  | past hi =>
    cases h' with
    | past => rfl
    | found ht | jump ht => exact absurd (lt_of_track ht) (Nat.not_lt.mpr hi)
  | found ht htype =>
    cases h' with
    | past hi => exact absurd (lt_of_track ht) (Nat.not_lt.mpr hi)
    | found => rfl
    | jump ht' htype' =>
      obtain rfl := Except.ok.inj (ht.symm.trans ht')
      exact absurd htype htype'
  | jump ht htype hrest ih =>
    cases h' with
    | past hi => exact absurd (lt_of_track ht) (Nat.not_lt.mpr hi)
    | found ht' htype' =>
      obtain rfl := Except.ok.inj (ht.symm.trans ht')
      exact absurd htype' htype
    | jump ht' htype' hrest' =>
      obtain rfl := Except.ok.inj (ht.symm.trans ht')
      exact ih hrest'

namespace Laid

variable {ws : List WireType} {counts : List Nat} {d : Directionality} {c : Channel}
  {wireType i : Nat}

section

variable (h : c.Laid ws counts d)

include h

theorem exists_standsAt (hi : i < c.tracks.size) :
    ∃ t, c.track i = .ok t ∧ t.StandsAt ws counts i := by
  obtain ⟨s, hs, -⟩ := h.exists_slot hi
  obtain ⟨hmem, hrel, hsum⟩ := getElem?_slots_iff.mp hs
  obtain ⟨⟨w, hw, hlength⟩, -, hstart⟩ := Block.mem_sequence_iff.mp hmem
  have hstop := Block.stop_eq_of_mem hmem
  refine ⟨_, h.track_eq hs, by simpa [Slot.track] using hsum, ?_, hstart, hstop, fun w' => ?_⟩
  · simp [Slot.track, hw, hlength]
  · constructor
    · rintro rfl
      change (counts.take s.block.wireType).sum ≤ i ∧ i < (counts.take (s.block.wireType + 1)).sum
      omega
    · intro hbounds
      -- The blocks of other types end before the position or start behind it.
      rcases lt_trichotomy s.block.wireType w' with hlt | heq | hgt
      · have hle := sum_take_mono counts (show s.block.wireType + 1 ≤ w' from hlt)
        omega
      · exact heq
      · have hle := sum_take_mono counts (show w' + 1 ≤ s.block.wireType from hgt)
        omega

/-! ## The search -/

/-- **The search does not stop on its way**: every track stands before the end of its block. -/
theorem search (wireType i : Nat) : c.Search wireType i (c.firstOfTypeFrom? wireType i) := by
  fun_induction c.firstOfTypeFrom? wireType i with
  | case1 i hi htype => exact .found (track_of_lt hi) htype
  | case2 i hi htype hend ih => exact .jump (track_of_lt hi) htype ih
  | case3 i hi htype hend =>
    obtain ⟨t, ht, hstands⟩ := h.exists_standsAt hi
    obtain rfl := Except.ok.inj ((track_of_lt hi).symm.trans ht)
    have hbounds := (hstands.wireType_iff _).mp rfl
    exact absurd (hstands.blockEnd_eq ▸ hbounds.2) hend
  | case4 i hi => exact .past (Nat.not_lt.mp hi)

theorem search_iff {result : Option Nat} :
    c.Search wireType 0 result ↔ result = c.firstOfType? wireType := by
  have hsearch : c.Search wireType 0 (c.firstOfType? wireType) := h.search wireType 0
  exact ⟨fun h' => h'.unique hsearch, fun heq => heq ▸ hsearch⟩

/-- **The search finds the least position of a wire type.** -/
theorem firstOfType?_eq_some_iff :
    c.firstOfType? wireType = some i
      ↔ IsLeast {j | ∃ t, c.track j = .ok t ∧ t.wireType = wireType} i := by
  have hfirst : ∀ j t, c.track j = .ok t → t.wireType = wireType →
      ∃ start, c.firstOfType? wireType = some start ∧ start ≤ j := by
    rintro j t ht rfl
    obtain ⟨s, hs, rfl⟩ := h.track_eq_ok_iff.mp ht
    have hsum := (getElem?_slots_iff.mp hs).2.2
    exact ⟨_, h.firstOfType?_eq hs, by omega⟩
  have hfound : ∀ start, c.firstOfType? wireType = some start →
      ∃ t, c.track start = .ok t ∧ t.wireType = wireType := by
    intro start hstart
    obtain ⟨s, hs, htype⟩ := h.slot_of_firstOfTypeFrom? hstart
    exact ⟨_, h.track_eq hs, htype⟩
  constructor
  · intro hi
    refine ⟨hfound i hi, ?_⟩
    rintro j ⟨t, ht, htype⟩
    obtain ⟨start, hstart, hle⟩ := hfirst j t ht htype
    obtain rfl := Option.some.inj (hi.symm.trans hstart)
    exact hle
  · rintro ⟨⟨t, ht, htype⟩, hleast⟩
    obtain ⟨start, hstart, hle⟩ := hfirst i t ht htype
    rw [hstart, Nat.le_antisymm hle (hleast (hfound start hstart))]

theorem firstOfType?_eq_none_iff :
    c.firstOfType? wireType = none ↔ ∀ j t, c.track j = .ok t → t.wireType ≠ wireType := by
  constructor
  · rintro hnone j t ht rfl
    obtain ⟨s, hs, rfl⟩ := h.track_eq_ok_iff.mp ht
    exact Option.some_ne_none _ ((h.firstOfType?_eq hs).symm.trans hnone)
  · intro hall
    refine Option.eq_none_iff_forall_ne_some.mpr fun i hi => ?_
    obtain ⟨⟨t, ht, htype⟩, -⟩ := h.firstOfType?_eq_some_iff.mp hi
    exact hall i t ht htype

end

/-! ## Pairs -/

/-- **The tracks of a unidirectional channel come in pairs**, one wire in both headings. -/
theorem exists_pair (h : c.Laid ws counts .unidirectional)
    (hwhole : Whole .unidirectional (Block.sequence 0 0 ws counts)) {q : Nat}
    (hq : 2 * q < c.tracks.size) :
    ∃ t, c.track (2 * q) = .ok t ∧ t.heading = .increasing ∧
      c.track (2 * q + 1) = .ok { t with index := 2 * q + 1, heading := .decreasing } := by
  obtain ⟨s, hs, -⟩ := h.exists_slot hq
  have hheading : Directionality.unidirectional.heading s.rel = .increasing :=
    (heading_slot hwhole hs).symm.trans (if_pos (Nat.mul_mod_right 2 q))
  have hnext : Directionality.unidirectional.twin .decreasing (2 * q) = 2 * q + 1 := by
    rw [Directionality.twin, if_neg (by decide), Nat.mul_div_cancel_left q Nat.two_pos,
      Nat.mul_comm]
  have htwin := getElem?_slots_twin hwhole hs .decreasing
  rw [hnext] at htwin
  have hindex := (getElem?_slots_iff.mp htwin).2.2
  rw [Nat.zero_add] at hindex
  have hruns : Directionality.unidirectional.Runs .decreasing := ⟨1, rfl⟩
  refine ⟨_, h.track_eq hs, hheading, ?_⟩
  rw [h.track_eq htwin, Slot.track_twin, hindex, Directionality.heading_twin hruns]

theorem inBlocks (h : c.Laid ws counts d) (hwhole : Whole d (Block.sequence 0 0 ws counts)) :
    c.InBlocks ws counts d where
  stands _ hi := h.exists_standsAt hi
  pairs hd _ hq := by
    subst hd
    exact h.exists_pair hwhole hq
  search_iff _ _ := h.search_iff
  first_iff _ _ := h.firstOfType?_eq_some_iff
  none_iff _ := h.firstOfType?_eq_none_iff

end Laid

end Channel

end FpgaRouting
