import FpgaRouting.Proofs.Build.Closure

/-!
# Proofs/Build/Missing — queries beyond the channels

      ┌── top ──┐       at  y + 1
    left      right     at  x + 1         a word, unless the tile is at  2 ^ 64 - 1
      └─ bottom ┘

A side of a switchblock may have no channel: on the ring of the device some sides have none, and
beyond it no side has any.  A key with such a side leads nowhere, and a tile outside the device is
empty.  **The one exception lies at the end of the words**: in the last column the place to the
right has no coordinate, nor in the last row the place above, and a switchblock with formulas for
such a side is aborted before it sees that the channel is missing (`targets_of_missing`).
-/

namespace FpgaRouting

/-! ## Sides that look past the last word -/

/-- Whether a side of the switchblock at a tile looks at a place that no word names. -/
def Tile.LooksPast (t : Tile) : Side → Prop
  | .top => t.y = 2 ^ 64 - 1
  | .right => t.x = 2 ^ 64 - 1
  | .bottom | .left => False

/-- Whether a switchblock has formulas for the sides of a key, one of which looks past the words. -/
def Switchblock.Overruns (s : Switchblock) (k : Key) : Prop :=
  (∃ p : SidePair, p.enter = k.enter ∧ p.leave = k.leave ∧ s.formulas p ≠ []) ∧
    (k.tile.LooksPast k.enter ∨ k.tile.LooksPast k.leave)

/-- Whether some switchblock of a fabric looks past the words for a key. -/
def Fabric.Overruns (f : Fabric) (k : Key) : Prop := ∃ s ∈ f.switchblocks, s.Overruns k

/-- **Only the last column and the last row of words look past them.** -/
theorem Tile.not_looksPast {t : Tile} (hx : t.x < 2 ^ 64 - 1) (hy : t.y < 2 ^ 64 - 1)
    (side : Side) : ¬ t.LooksPast side := by
  cases side with
  | bottom | left => exact not_false
  | top => exact hy.ne
  | right => exact hx.ne

theorem Fabric.not_overruns {k : Key} (hx : k.x < 2 ^ 64 - 1) (hy : k.y < 2 ^ 64 - 1)
    (f : Fabric) : ¬ f.Overruns k := by
  rintro ⟨s, -, -, hpast | hpast⟩
  · exact Tile.not_looksPast hx hy k.enter hpast
  · exact Tile.not_looksPast hx hy k.leave hpast

/-- **Past the last word the next coordinate overflows.** -/
theorem ChannelCoord.ofSide_of_looksPast {t : Tile} {side : Side} (h : t.LooksPast side) :
    ofSide t side = .error .overflow := by
  cases side with
  | bottom | left => exact h.elim
  | top =>
    obtain ⟨x, y⟩ := t
    obtain rfl : y = 2 ^ 64 - 1 := h
    rfl
  | right =>
    obtain ⟨x, y⟩ := t
    obtain rfl : x = 2 ^ 64 - 1 := h
    rfl

/-- Any other side of a tile among the words looks at a place. -/
theorem ChannelCoord.ofSide_of_not_looksPast {t : Tile} {side : Side} (hx : t.x < 2 ^ 64)
    (hy : t.y < 2 ^ 64) (h : ¬ t.LooksPast side) : ofSide t side = .ok (beside t side) := by
  cases side with
  | bottom | left => rfl
  | top =>
    have hy' : t.y ≠ 2 ^ 64 - 1 := h
    have hlt : t.y + 1 < Word.count := by simp only [Word.count]; omega
    rw [ofSide, Word.add, Word.check_of_lt hlt]
    rfl
  | right =>
    have hx' : t.x ≠ 2 ^ 64 - 1 := h
    have hlt : t.x + 1 < Word.count := by simp only [Word.count]; omega
    rw [ofSide, Word.add, Word.check_of_lt hlt]
    rfl

namespace Fabric

variable {f : Fabric} {k : Key} {t : Tile} {side : Side}

theorem channelAt?_of_looksPast (h : t.LooksPast side) :
    f.layout.channelAt? t side = .error .overflow := by
  rw [Layout.channelAt?, ChannelCoord.ofSide_of_looksPast h]
  rfl

theorem channelAt?_of_not_looksPast (hx : t.x < 2 ^ 64) (hy : t.y < 2 ^ 64)
    (h : ¬ t.LooksPast side) :
    f.layout.channelAt? t side = .ok (f.layout.channel? (ChannelCoord.beside t side)) := by
  rw [Layout.channelAt?, ChannelCoord.ofSide_of_not_looksPast hx hy h]
  rfl

/-- A place without a channel, unless it is past the words. -/
theorem channel?_eq_none_of_missing (hx : t.x < 2 ^ 64) (hy : t.y < 2 ^ 64)
    (hpast : ¬ t.LooksPast side) (h : ¬ f.HasChannel t side) :
    f.layout.channel? (ChannelCoord.beside t side) = none :=
  Option.eq_none_iff_forall_ne_some.mpr fun c hc =>
    h ⟨c, by rw [channelAt?_of_not_looksPast hx hy hpast, hc]⟩

/-! ## One switchblock -/

section

variable (hx : k.x < 2 ^ 64) (hy : k.y < 2 ^ 64)

include hx hy

theorem targetsIn_of_overruns {s : Switchblock} (h : s.Overruns k) :
    f.targetsIn k s = .error (.aborted .overflow) := by
  obtain ⟨⟨p, henter, hleave, hformulas⟩, hpast⟩ := h
  have hpair : SidePair.of? k.enter k.leave = some p := henter ▸ hleave ▸ p.of?_eq_some
  rw [targetsIn, hpair]
  simp only [List.isEmpty_iff, if_neg hformulas, henter, hleave]
  by_cases hsource : k.tile.LooksPast k.enter
  · rw [channelAt?_of_looksPast hsource]
    rfl
  · rw [channelAt?_of_not_looksPast hx hy hsource,
      channelAt?_of_looksPast (hpast.resolve_left hsource)]
    rfl

/-- **A switchblock passes over a missing channel**, if it sees that it is missing. -/
theorem targetsIn_of_not_overruns
    (hmissing : ¬ f.HasChannel k.tile k.enter ∨ ¬ f.HasChannel k.tile k.leave) {s : Switchblock}
    (h : ¬ s.Overruns k) : f.targetsIn k s = .ok [] := by
  by_cases hsides : k.enter = k.leave
  · exact targetsIn_of_enter_eq_leave hsides s
  by_cases hformulas : s.formulas ⟨k.enter, k.leave, hsides⟩ = []
  · rw [targetsIn, SidePair.of?, dif_pos hsides]
    simp only [hformulas, List.isEmpty_nil, if_true]
    rfl
  · -- The sides look at places, and one of the places has no channel.
    have hplaces : ¬ (k.tile.LooksPast k.enter ∨ k.tile.LooksPast k.leave) := fun hpast =>
      h ⟨⟨_, rfl, rfl, hformulas⟩, hpast⟩
    rw [not_or] at hplaces
    refine targetsIn_of_missing (channelAt?_of_not_looksPast hx hy hplaces.1)
      (channelAt?_of_not_looksPast hx hy hplaces.2) ?_ s
    rcases hmissing with hmissing | hmissing
    · exact .inl (channel?_eq_none_of_missing hx hy hplaces.1 hmissing)
    · exact .inr (.inl (channel?_eq_none_of_missing hx hy hplaces.2 hmissing))

/-! ## A key -/

variable (hmissing : ¬ f.HasChannel k.tile k.enter ∨ ¬ f.HasChannel k.tile k.leave)

include hmissing

theorem targets_of_not_overruns (h : ¬ f.Overruns k) : f.targets k = .ok [] :=
  targets_of_targetsIn fun s hs =>
    targetsIn_of_not_overruns hx hy hmissing fun hs' => h ⟨s, hs, hs'⟩

/-- A failure at a missing channel is the overflow. -/
theorem eq_overflow_of_targetsIn {s : Switchblock} {e : Failure}
    (h : f.targetsIn k s = .error e) : e = .aborted .overflow := by
  by_cases hs : s.Overruns k
  · exact Except.error.inj (h.symm.trans (targetsIn_of_overruns hx hy hs))
  · simp [targetsIn_of_not_overruns hx hy hmissing hs] at h

theorem targets_of_overruns (h : f.Overruns k) : f.targets k = .error (.aborted .overflow) := by
  obtain ⟨s, hs, hoverruns⟩ := h
  cases htargets : f.targets k with
  | ok ts =>
    rw [targets_eq_map, Outcome.map_eq_ok_iff] at htargets
    obtain ⟨tss, htss, -⟩ := htargets
    obtain ⟨us, hus⟩ := Outcome.exists_mapM_eq_ok_iff.mp ⟨tss, htss⟩ s hs
    simp [targetsIn_of_overruns hx hy hoverruns] at hus
  | error e =>
    obtain ⟨s', -, hs'⟩ := exists_of_targets_eq_error htargets
    rw [eq_overflow_of_targetsIn hx hy hmissing hs']

end

/-! ## A tile outside the device -/

/-- **Outside the device no side has a channel.** -/
theorem Regular.not_hasChannel (h : f.Regular)
    (hout : f.device.width < t.x ∨ f.device.height < t.y) (side : Side) :
    ¬ f.HasChannel t side := by
  intro hside
  obtain ⟨hx, hy⟩ := Tile.mem_grid.mp (h.mem_tiles_of_hasChannel hside)
  omega

section

variable (hx : t.x < 2 ^ 64) (hy : t.y < 2 ^ 64) (hmissing : ∀ side, ¬ f.HasChannel t side)

include hx hy hmissing

theorem connectionsAt_of_not_overruns (h : ∀ k ∈ f.keysAt t, ¬ f.Overruns k) :
    f.connectionsAt t = .ok .empty := by
  have htargets : ∀ k ∈ f.keysAt t, f.targets k = .ok [] := by
    intro k hk
    obtain rfl := tile_of_mem_keysAt hk
    exact targets_of_not_overruns hx hy (.inl (hmissing k.enter)) (h k hk)
  obtain ⟨es, hes⟩ := computes_iff_exists_targets.mpr fun k hk => ⟨[], htargets k hk⟩
  have hnil : es = [] := by
    refine List.eq_nil_iff_forall_not_mem.mpr fun e he => ?_
    obtain ⟨k, hk, u, ⟨us, hus, hu⟩, -⟩ := (mem_tileAdditions_iff hes).mp he
    obtain rfl := Except.ok.inj ((htargets k hk).symm.trans hus)
    exact List.not_mem_nil hu
  rw [connectionsAt, addTile_eq, hes, hnil]
  rfl

theorem connectionsAt_of_overruns (h : ∃ k ∈ f.keysAt t, f.Overruns k) :
    f.connectionsAt t = .error (.aborted .overflow) := by
  obtain ⟨k, hk, hoverruns⟩ := h
  rw [connectionsAt, addTile_eq]
  cases hes : f.tileAdditions t with
  | ok es =>
    obtain ⟨ts, hts⟩ := computes_iff_exists_targets.mp ⟨es, hes⟩ k hk
    obtain rfl := tile_of_mem_keysAt hk
    simp [targets_of_overruns hx hy (.inl (hmissing k.enter)) hoverruns] at hts
  | error e =>
    obtain ⟨l, hl, s, -, hs⟩ := exists_of_tileAdditions_eq_error hes
    obtain rfl := tile_of_mem_keysAt hl
    obtain rfl := eq_overflow_of_targetsIn hx hy (.inl (hmissing l.enter)) hs
    rfl

end

/-- **A missing channel is no failure, short of the last word.**  On an accepted device within the
limit, take any key among the words whose tile lacks the channel of one of its sides.  The key has
no targets, unless a switchblock has formulas for the sides and one of them looks past the last
word: its targets are then aborted by an overflow.  A tile outside the device lacks every channel;
it has no connections, unless one of its keys is aborted, and the tile with it.  That takes a key in
the last column or the last row that words can name. -/
theorem targets_of_missing {a : Architecture} (haccept : ofArchitecture a = .ok f)
    (hsize : Moderate a.device a.wireTypes) :
    (∀ k : Key, k.x < 2 ^ 64 → k.y < 2 ^ 64 →
      ¬ f.HasChannel k.tile k.enter ∨ ¬ f.HasChannel k.tile k.leave →
      (¬ f.Overruns k → f.targets k = .ok []) ∧
      (f.Overruns k → f.targets k = .error (.aborted .overflow))) ∧
    (∀ t : Tile, t.x < 2 ^ 64 → t.y < 2 ^ 64 → f.device.width < t.x ∨ f.device.height < t.y →
      (∀ side, ¬ f.HasChannel t side) ∧
      ((∀ k ∈ f.keysAt t, ¬ f.Overruns k) → f.connectionsAt t = .ok .empty) ∧
      ((∃ k ∈ f.keysAt t, f.Overruns k) →
        f.connectionsAt t = .error (.aborted .overflow))) ∧
    ∀ k : Key, k.x < 2 ^ 64 - 1 → k.y < 2 ^ 64 - 1 → ¬ f.Overruns k := by
  have hregular := regular_of_architecture haccept hsize
  refine ⟨?_, ?_, fun k hx hy => f.not_overruns hx hy⟩
  · intro k hx hy hmissing
    exact ⟨targets_of_not_overruns hx hy hmissing, targets_of_overruns hx hy hmissing⟩
  · intro t hx hy hout
    have hmissing := hregular.not_hasChannel hout
    exact ⟨hmissing, connectionsAt_of_not_overruns hx hy hmissing,
      connectionsAt_of_overruns hx hy hmissing⟩

set_option maxRecDepth 4000 in
/-- On the small one-way device a key at its right edge has no targets and the tile above its corner
no connections, but in the last column of the words the same key is aborted, and with it its tile. -/
theorem targets_of_missing_oneWay : ∃ f, ofArchitecture oneWay = .ok f ∧
    ¬ f.HasChannel ⟨2, 1⟩ .right ∧ f.targets ⟨2, 1, .bottom, .right, 0⟩ = .ok [] ∧
    f.connectionsAt ⟨2, 3⟩ = .ok .empty ∧
    f.targets ⟨2 ^ 64 - 1, 1, .bottom, .right, 0⟩ = .error (.aborted .overflow) ∧
    f.connectionsAt ⟨2 ^ 64 - 1, 1⟩ = .error (.aborted .overflow) := by
  have hmissing : ∀ f : Fabric, f.layout.channelAt? ⟨2, 1⟩ .right = .ok none →
      ¬ f.HasChannel ⟨2, 1⟩ .right := by
    rintro f hnone ⟨c, hc⟩
    simp [hnone] at hc
  have hlast : ∀ f : Fabric, (∃ s ∈ f.switchblocks, s.formulas ⟨.bottom, .right, by decide⟩ ≠ []) →
      f.Overruns ⟨2 ^ 64 - 1, 1, .bottom, .right, 0⟩ := by
    rintro f ⟨s, hs, hformulas⟩
    exact ⟨s, hs, ⟨_, rfl, rfl, hformulas⟩, .inr rfl⟩
  have hall := @targets_of_missing _ oneWay (by cbv) (by decide)
  refine ⟨_, by cbv, hmissing _ (by cbv), ?_, ?_, ?_, ?_⟩
  · exact (hall.1 ⟨2, 1, .bottom, .right, 0⟩ (by decide) (by decide)
      (.inr (hmissing _ (by cbv)))).1 (not_overruns (by decide) (by decide) _)
  · refine (hall.2.1 ⟨2, 3⟩ (by decide) (by decide) (.inr (by decide))).2.1 fun k hk => ?_
    obtain ⟨hx, hy⟩ := Tile.mk.inj (tile_of_mem_keysAt hk)
    exact not_overruns (by omega) (by omega) _
  · have hout := hall.2.1 ⟨2 ^ 64 - 1, 1⟩ (by decide) (by decide) (.inl (by decide))
    exact (hall.1 ⟨2 ^ 64 - 1, 1, .bottom, .right, 0⟩ (by decide) (by decide)
      (.inl (hout.1 .bottom))).2 (hlast _ ⟨_, List.mem_cons_self, by decide⟩)
  · exact (hall.2.1 ⟨2 ^ 64 - 1, 1⟩ (by decide) (by decide) (.inl (by decide))).2.2
      ⟨_, mem_keysAt_iff.mpr ⟨rfl, by decide, by decide⟩,
        hlast _ ⟨_, List.mem_cons_self, by decide⟩⟩

set_option maxRecDepth 4000 in
/-- **A query beyond the device can be aborted**: in the last column of the words, where the place
to the right has no coordinate. -/
theorem not_forall_targets_of_missing : ¬ ∀ (a : Architecture) (f : Fabric),
    ofArchitecture a = .ok f → Moderate a.device a.wireTypes →
    (∀ k : Key, k.x < 2 ^ 64 → k.y < 2 ^ 64 →
      ¬ f.HasChannel k.tile k.enter ∨ ¬ f.HasChannel k.tile k.leave → f.targets k = .ok []) ∧
    ∀ t : Tile, t.x < 2 ^ 64 → t.y < 2 ^ 64 → f.device.width < t.x ∨ f.device.height < t.y →
      f.connectionsAt t = .ok .empty := by
  have haborted : ∃ f, ofArchitecture oneWay = .ok f ∧
      f.layout.channelAt? ⟨2 ^ 64 - 1, 1⟩ .right = .error .overflow ∧
      f.targets ⟨2 ^ 64 - 1, 1, .bottom, .right, 0⟩ = .error (.aborted .overflow) :=
    ⟨_, by cbv, by cbv, by cbv⟩
  intro hall
  obtain ⟨f, haccept, hchannel, hoverflow⟩ := haborted
  have hmissing : ¬ f.HasChannel ⟨2 ^ 64 - 1, 1⟩ .right := by
    rintro ⟨c, hc⟩
    exact absurd (hchannel.symm.trans hc) (by simp)
  have hempty := (hall oneWay f haccept (by decide)).1 ⟨2 ^ 64 - 1, 1, .bottom, .right, 0⟩
    (by decide) (by decide) (.inr hmissing)
  exact absurd (hoverflow.symm.trans hempty) (by simp)

end Fabric

end FpgaRouting
