import FpgaRouting.Proofs.Stamp.Decision

/-!
# Proofs/Stamp/PairPeriods — the longest period of a pair against the period of all

    lengths 2 ↔ 3, 2 ↔ 4        pairs 6, 4        longest 6        period 12

The period is answered exactly where the least common multiple of the connected lengths is a word:
an answer passed the check of its last multiplication, and where the multiple is a word so is all
that the search multiplies on the way.  The longest period of a pair is one of those multiplied
together, so it divides the period.  **The two agree if the connected lengths divide one another**:
the period is then the greatest length, and no pair that this length is in repeats earlier
(`period_eq_commonPeriod`).
-/

namespace FpgaRouting

namespace Word

/-! ## The greatest common divisor, by division with remainder -/

/-- Divides the last divisor by the last remainder until there is none. -/
def euclid (a b : Nat) : Nat := if b = 0 then a else euclid b (a % b)
termination_by b
decreasing_by exact Nat.mod_lt _ (Nat.pos_of_ne_zero ‹_›)

theorem euclid_eq_gcd (a b : Nat) : euclid a b = Nat.gcd a b := by
  induction a, b using euclid.induct with
  | case1 a => rw [euclid, if_pos rfl, Nat.gcd_zero_right]
  | case2 a b hb ih => rw [euclid, if_neg hb, ih, Nat.gcd_comm, ← Nat.gcd_rec, Nat.gcd_comm]

/-- **The multiple is computed by division first**, so that only the multiple itself must fit. -/
theorem lcm_eq_euclid (a b : Nat) :
    lcm a b = if a = 0 ∨ b = 0 then .ok 0 else mul (a / euclid a b) b := by
  rw [lcm, euclid_eq_gcd]

theorem lt_of_lcm {a b c : Nat} (h : lcm a b = .ok c) : c < count := by
  rw [lcm] at h
  split_ifs at h
  · obtain rfl := Except.ok.inj h
    exact Nat.two_pow_pos 64
  · obtain ⟨hlt, rfl⟩ := check_eq_ok_iff.mp h
    exact hlt

end Word

/-- The greatest number of a list, if it is not that to start from, is in the list. -/
theorem foldl_max_eq_or_mem (ns : List Nat) (a : Nat) :
    ns.foldl max a = a ∨ ns.foldl max a ∈ ns := by
  induction ns generalizing a with
  | nil => exact .inl rfl
  | cons n ns ih =>
    rw [List.foldl_cons, List.mem_cons]
    rcases ih (max a n) with heq | hmem
    · rw [heq]
      exact (max_choice a n).imp_right .inl
    · exact .inr (.inr hmem)

namespace Fabric

variable {f : Fabric} {l n : Nat}

/-! ## Periods of pairs -/

/-- The period of a from and a to type of one rule. -/
def IsPairPeriod (f : Fabric) (l : Nat) : Prop :=
  ∃ r ∈ f.rules, ∃ source ∈ r.fromTypes, ∃ destination ∈ r.toTypes,
    l = Nat.lcm (f.lengthAt source) (f.lengthAt destination)

theorem mem_periods_iff : l ∈ f.rules.flatMap f.periodsOf ↔ f.IsPairPeriod l := by
  simp only [periodsOf, IsPairPeriod, List.mem_flatMap, List.mem_map, eq_comm]

theorem IsPairPeriod.dvd_commonPeriod (h : f.IsPairPeriod l) : l ∣ f.commonPeriod :=
  forall_periodsOf_dvd_iff.mpr (fun _ hw => Fabric.dvd_commonPeriod hw) l (mem_periods_iff.mpr h)

theorem commonPeriod_dvd_iff : f.commonPeriod ∣ n ↔ ∀ w ∈ f.connectedTypes, f.lengthAt w ∣ n := by
  rw [commonPeriod, foldl_lcm_dvd_iff, List.forall_mem_map]
  exact and_iff_right (one_dvd n)

/-- Every connected length divides the period of a pair. -/
theorem exists_isPairPeriod {w : Nat} (hw : w ∈ f.connectedTypes) :
    ∃ l, f.IsPairPeriod l ∧ f.lengthAt w ∣ l := by
  obtain ⟨r, hr, hfrom, hto, hw⟩ := mem_connectedTypes_iff.mp hw
  rcases List.mem_append.mp hw with hw | hw
  · obtain ⟨destination, hdestination⟩ := List.exists_mem_of_ne_nil _ hto
    exact ⟨_, ⟨r, hr, w, hw, destination, hdestination, rfl⟩, Nat.dvd_lcm_left _ _⟩
  · obtain ⟨source, hsource⟩ := List.exists_mem_of_ne_nil _ hfrom
    exact ⟨_, ⟨r, hr, source, hsource, w, hw, rfl⟩, Nat.dvd_lcm_right _ _⟩

/-! ## An answer fits a word -/

theorem lt_of_mem_pairPeriods {ls : List Nat} (h : f.pairPeriods = .ok ls) (hl : l ∈ ls) :
    l < Word.count := by
  obtain ⟨lcms, hlcms, h⟩ := Outcome.bind_eq_ok_iff.mp h
  obtain rfl := Except.ok.inj h
  obtain ⟨row, hrow, hl⟩ := List.mem_flatten.mp hl
  obtain ⟨r, -, hperiods⟩ := Outcome.exists_of_mem_mapM hlcms hrow
  obtain ⟨rows, hrows, hflatten⟩ := Outcome.bind_eq_ok_iff.mp hperiods
  obtain rfl := Except.ok.inj hflatten
  obtain ⟨row, hrow, hl⟩ := List.mem_flatten.mp hl
  obtain ⟨source, -, hlengths⟩ := Outcome.exists_of_mem_mapM hrows hrow
  obtain ⟨destination, -, hlcm⟩ := Outcome.exists_of_mem_mapM hlengths hl
  obtain ⟨_, -, hlcm⟩ := Outcome.bind_eq_ok_iff.mp hlcm
  obtain ⟨_, -, hlcm⟩ := Outcome.bind_eq_ok_iff.mp hlcm
  exact Word.lt_of_lcm hlcm

theorem lt_of_period (h : f.period = .ok n) : n < Word.count := by
  obtain ⟨periods, hperiods, h⟩ := Outcome.bind_eq_ok_iff.mp h
  cases periods with
  | nil =>
    obtain rfl := Except.ok.inj h
    exact Nat.two_pow_pos 64
  | cons l ls =>
    refine Outcome.holds_of_foldlM (fun _ m => m < Word.count) ?_ h
      (lt_of_mem_pairPeriods hperiods List.mem_cons_self)
    exact fun k left m m' _ hstep => Word.lt_of_lcm hstep

namespace Resolved

variable (h : f.Resolved)

include h

/-- **A multiple that is no word makes the search overflow.** -/
theorem period_eq_overflow (hempty : f.connectedTypes ≠ []) (hlong : Word.count ≤ f.commonPeriod) :
    f.period = .error .overflow := by
  cases hperiod : f.period with
  | error fault => rw [h.eq_overflow_of_period hperiod]
  | ok n =>
    have hn := eq_of_period hperiod
    rw [if_neg hempty] at hn
    exact absurd (lt_of_period hperiod) (by omega)

/-! ## The longest period of a pair -/

theorem longestPeriod_eq (hlt : f.commonPeriod < Word.count) :
    f.longestPeriod = .ok ((f.rules.flatMap f.periodsOf).foldl max 0) := by
  rw [longestPeriod, h.pairPeriods_eq hlt, Outcome.ok_bind]
  rfl

/-- **Where wire types are connected, the longest period of a pair is that of some pair.** -/
theorem isGreatest_longest (hempty : f.connectedTypes ≠ []) :
    IsGreatest {l | f.IsPairPeriod l} ((f.rules.flatMap f.periodsOf).foldl max 0) := by
  have hle := (foldl_max_le_iff (b := (f.rules.flatMap f.periodsOf).foldl max 0) (a := 0)).mp le_rfl
  refine ⟨mem_periods_iff.mp ?_, fun l hl => hle.2 l (mem_periods_iff.mpr hl)⟩
  rcases foldl_max_eq_or_mem (f.rules.flatMap f.periodsOf) 0 with hzero | hmem
  · -- no period is `0`, so the search did not end where it starts
    obtain ⟨l, hl⟩ := List.exists_mem_of_ne_nil _ fun hnil => hempty (periods_eq_nil_iff.mp hnil)
    have hpos := h.periodsOf_pos hl
    have hmax := hle.2 l hl
    omega
  · exact hmem

/-- **If the connected lengths divide one another**, no pair of all is shorter than their
multiple. -/
theorem commonPeriod_le_of_chain (hempty : f.connectedTypes ≠ [])
    (hchain : ∀ v ∈ f.connectedTypes, ∀ w ∈ f.connectedTypes,
      f.lengthAt v ∣ f.lengthAt w ∨ f.lengthAt w ∣ f.lengthAt v)
    (hn : n ∈ upperBounds {l | f.IsPairPeriod l}) : f.commonPeriod ≤ n := by
  obtain ⟨w, hw, hlongest⟩ := f.connectedTypes.toFinset.exists_max_image f.lengthAt
    (List.toFinset_nonempty_iff _ |>.mpr hempty)
  simp only [List.mem_toFinset] at hw hlongest
  have hpos := h.lengthAt_pos hw
  have hdvd : f.commonPeriod ∣ f.lengthAt w := by
    refine commonPeriod_dvd_iff.mpr fun v hv => ?_
    rcases hchain v hv w hw with hdvd | hdvd
    · exact hdvd
    · exact (Nat.le_antisymm (Nat.le_of_dvd (h.lengthAt_pos hv) hdvd) (hlongest v hv)) ▸ dvd_rfl
  obtain ⟨l, hl, hwl⟩ := exists_isPairPeriod hw
  have hlpos := Nat.pos_of_dvd_of_pos hl.dvd_commonPeriod h.commonPeriod_pos
  calc f.commonPeriod ≤ f.lengthAt w := Nat.le_of_dvd hpos hdvd
    _ ≤ l := Nat.le_of_dvd hlpos hwl
    _ ≤ n := hn hl

end Resolved

/-! ## The two periods -/

/-- **The period is the least common multiple of the lengths of the connected wire types.**  On an
accepted device of any size, the period and the longest period of a pair are `0` if no wire types
are connected.  Otherwise the search for the period returns that multiple if it fits 64 bits, and
overflows exactly if it does not.  If it fits, the longest period of a pair is the greatest least
common multiple of a from and a to type of one rule; it divides the period, and equals it if of any
two connected lengths one divides the other. -/
theorem period_eq_commonPeriod {a : Architecture} (haccept : ofArchitecture a = .ok f) :
    (f.connectedTypes = [] → f.period = .ok 0 ∧ f.longestPeriod = .ok 0) ∧
    (f.connectedTypes ≠ [] →
      (∀ n, f.commonPeriod ∣ n ↔ ∀ w ∈ f.connectedTypes, f.lengthAt w ∣ n) ∧
      (f.period = .ok f.commonPeriod ↔ f.commonPeriod < 2 ^ 64) ∧
      (f.period = .error .overflow ↔ 2 ^ 64 ≤ f.commonPeriod) ∧
      (f.commonPeriod < 2 ^ 64 → ∃ n, f.longestPeriod = .ok n ∧
        IsGreatest {l | f.IsPairPeriod l} n ∧ n ∣ f.commonPeriod ∧
        ((∀ v ∈ f.connectedTypes, ∀ w ∈ f.connectedTypes,
          f.lengthAt v ∣ f.lengthAt w ∨ f.lengthAt w ∣ f.lengthAt v) → n = f.commonPeriod))) := by
  have h := resolved_of_architecture haccept
  constructor
  · intro hempty
    have hlt : f.commonPeriod < Word.count := by
      rw [commonPeriod, hempty]
      exact Nat.one_lt_two_pow (n := 64) (by decide)
    refine ⟨(h.period_eq hlt).trans (by rw [if_pos hempty]), ?_⟩
    rw [h.longestPeriod_eq hlt, periods_eq_nil_iff.mpr hempty]
    rfl
  · intro hempty
    have hshort (hlt : f.commonPeriod < 2 ^ 64) : f.period = .ok f.commonPeriod :=
      (h.period_eq hlt).trans (by rw [if_neg hempty])
    have hlong (hle : 2 ^ 64 ≤ f.commonPeriod) : f.period = .error .overflow :=
      h.period_eq_overflow hempty hle
    refine ⟨fun n => commonPeriod_dvd_iff, ⟨lt_of_period, hshort⟩, ⟨fun hoverflow => ?_, hlong⟩, ?_⟩
    · by_contra hlt
      simp [hshort (Nat.not_le.mp hlt)] at hoverflow
    · intro hlt
      have hgreatest := h.isGreatest_longest hempty
      have hdvd := IsPairPeriod.dvd_commonPeriod hgreatest.1
      refine ⟨_, h.longestPeriod_eq hlt, hgreatest, hdvd, fun hchain => ?_⟩
      exact Nat.le_antisymm (Nat.le_of_dvd h.commonPeriod_pos hdvd)
        (h.commonPeriod_le_of_chain hempty hchain hgreatest.2)

/-- A device of one tile, whose pairs repeat with `6` and with `4`. -/
def twoPairs : Architecture where
  device := ⟨1, 1, 3⟩
  directionality := .bidirectional
  wireTypes := [⟨"two", 2, 1⟩, ⟨"three", 3, 1⟩, ⟨"four", 4, 1⟩]
  switchblocks := [{
    name := "bend"
    directionality := .bidirectional
    switchName := "mux"
    rules := [⟨["two"], ["three"], none, none, none⟩, ⟨["two"], ["four"], none, none, none⟩]
    permutations := (∅ : Permutations).insert ⟨.bottom, .left, Side.bottom_ne_left⟩ ["t"] }]

set_option maxRecDepth 4000 in
/-- Pairs that repeat with `6` and `4` repeat together with `12`; the period of the overlong device
overflows. -/
theorem period_eq_commonPeriod_twoPairs :
    (∃ f, ofArchitecture twoPairs = .ok f ∧ f.period = .ok 12 ∧
      f.longestPeriod = .ok 6 ∧ IsGreatest {l | f.IsPairPeriod l} 6) ∧
    ∃ f, ofArchitecture overlong = .ok f ∧ f.period = .error .overflow := by
  refine ⟨⟨_, by cbv, ?_⟩, _, by cbv, ?_⟩
  · have h := (@period_eq_commonPeriod _ twoPairs (by cbv)).2 (by decide)
    obtain ⟨n, hn, hgreatest, -⟩ := h.2.2.2 (by decide)
    obtain rfl : n = 6 := Except.ok.inj (hn.symm.trans (by cbv))
    exact ⟨h.2.1.mpr (by decide), hn, hgreatest⟩
  · exact ((@period_eq_commonPeriod _ overlong (by cbv)).2 (by decide)).2.2.1.mpr (by decide)

end Fabric

end FpgaRouting
