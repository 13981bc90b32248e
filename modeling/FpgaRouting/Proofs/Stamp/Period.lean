import FpgaRouting.Proofs.Fabric
import FpgaRouting.Stamp.Plan

/-!
# Proofs/Stamp/Period — the period is the least common multiple of the connected lengths

The period is computed pair by pair, from words that may overflow on the way.  The least common
multiple of a part divides that of the whole, so **where the whole fits a word nothing overflows**,
and the period is that of the lengths of all connected wire types (`period_eq`).
-/

namespace FpgaRouting

/-! ## Least common multiples of words -/

theorem foldl_lcm_dvd_iff {ls : List Nat} {l n : Nat} :
    ls.foldl Nat.lcm l ∣ n ↔ l ∣ n ∧ ∀ k ∈ ls, k ∣ n := by
  induction ls generalizing l with
  | nil => simp
  | cons k ls ih => rw [List.foldl_cons, ih, Nat.lcm_dvd_iff, List.forall_mem_cons, and_assoc]

theorem foldl_lcm_pos {ls : List Nat} {l : Nat} (hl : 0 < l) (hpos : ∀ k ∈ ls, 0 < k) :
    0 < ls.foldl Nat.lcm l := by
  induction ls generalizing l with
  | nil => exact hl
  | cons k ls ih =>
    exact ih (Nat.lcm_pos hl (hpos k List.mem_cons_self)) fun k' hk' =>
      hpos k' (List.mem_cons_of_mem _ hk')

namespace Word

theorem lcm_eq {a b : Nat} (ha : 0 < a) (hb : 0 < b) (h : Nat.lcm a b < count) :
    lcm a b = .ok (Nat.lcm a b) := by
  have hlcm : a / Nat.gcd a b * b = Nat.lcm a b := Nat.div_mul_right_comm (Nat.gcd_dvd_left a b) b
  rw [lcm, if_neg (by omega), mul, hlcm, check_of_lt h]

/-- **Where the last multiple fits a word, so do those before it.** -/
theorem foldlM_lcm {ls : List Nat} {l : Nat} (hl : 0 < l) (hpos : ∀ k ∈ ls, 0 < k)
    (h : ls.foldl Nat.lcm l < count) : ls.foldlM lcm l = .ok (ls.foldl Nat.lcm l) := by
  induction ls generalizing l with
  | nil => rfl
  | cons k ls ih =>
    rw [List.foldl_cons] at h
    have hk : 0 < k := hpos k List.mem_cons_self
    have hls : ∀ k' ∈ ls, 0 < k' := fun k' hk' => hpos k' (List.mem_cons_of_mem _ hk')
    have hdvd : Nat.lcm l k ∣ ls.foldl Nat.lcm (Nat.lcm l k) :=
      (foldl_lcm_dvd_iff.mp dvd_rfl).1
    have hle := Nat.le_of_dvd (foldl_lcm_pos (Nat.lcm_pos hl hk) hls) hdvd
    rw [List.foldlM_cons, lcm_eq hl hk (hle.trans_lt h), Outcome.ok_bind,
      ih (Nat.lcm_pos hl hk) hls h]
    rfl

theorem eq_lcm_of_lcm {a b c : Nat} (h : lcm a b = .ok c) : c = Nat.lcm a b := by
  rw [lcm] at h
  split_ifs at h with hzero
  · obtain rfl := Except.ok.inj h
    exact (Nat.lcm_eq_zero_iff.mpr hzero).symm
  · obtain ⟨-, rfl⟩ := check_eq_ok_iff.mp h
    exact Nat.div_mul_right_comm (Nat.gcd_dvd_left a b) b

theorem eq_foldl_lcm_of_foldlM {ls : List Nat} {l n : Nat} (h : ls.foldlM lcm l = .ok n) :
    n = ls.foldl Nat.lcm l := by
  refine Outcome.holds_of_foldlM (fun left m => left.foldl Nat.lcm m = ls.foldl Nat.lcm l) ?_ h rfl
  intro k left m m' hm hstep
  rwa [eq_lcm_of_lcm hstep]

theorem eq_overflow_of_check {n : Nat} {fault : Fault} (h : check n = .error fault) :
    fault = .overflow := by
  rw [check] at h
  split_ifs at h
  exact (Except.error.inj h).symm

theorem eq_overflow_of_lcm {a b : Nat} {fault : Fault} (h : lcm a b = .error fault) :
    fault = .overflow := by
  rw [lcm] at h
  split_ifs at h
  exact eq_overflow_of_check h

end Word

namespace Fabric

variable {f : Fabric}

/-! ## Connected wire types -/

/-- The length of the wire type with an index, `0` if there is none. -/
def lengthAt (f : Fabric) (wireType : Nat) : Nat :=
  (f.wireTypes[wireType]?.map (·.length)).getD 0

/-- The rules of all switchblocks. -/
def rules (f : Fabric) : List Rule := f.switchblocks.flatMap (·.rules)

/-- The wire types that a rule connects to some other. -/
def connectedTypes (f : Fabric) : List Nat :=
  f.rules.flatMap fun r =>
    if r.fromTypes = [] ∨ r.toTypes = [] then [] else r.fromTypes ++ r.toTypes

/-- **The least common multiple of the connected lengths.** -/
def commonPeriod (f : Fabric) : Nat := (f.connectedTypes.map f.lengthAt).foldl Nat.lcm 1

theorem mem_connectedTypes_iff {w : Nat} :
    w ∈ f.connectedTypes
      ↔ ∃ r ∈ f.rules, r.fromTypes ≠ [] ∧ r.toTypes ≠ [] ∧ w ∈ r.fromTypes ++ r.toTypes := by
  simp only [connectedTypes, List.mem_flatMap]
  refine exists_congr fun r => and_congr_right fun _ => ?_
  split_ifs with h
  · simp only [List.not_mem_nil, false_iff]
    tauto
  · tauto

/-- Both types of a pair that a rule connects are connected. -/
theorem mem_connectedTypes_of_pair {r : Rule} (hr : r ∈ f.rules) {source destination : Nat}
    (hsource : source ∈ r.fromTypes) (hdestination : destination ∈ r.toTypes) :
    source ∈ f.connectedTypes ∧ destination ∈ f.connectedTypes := by
  have hmem : ∀ w ∈ r.fromTypes ++ r.toTypes, w ∈ f.connectedTypes := fun w hw =>
    mem_connectedTypes_iff.mpr
      ⟨r, hr, List.ne_nil_of_mem hsource, List.ne_nil_of_mem hdestination, hw⟩
  exact ⟨hmem source (List.mem_append_left _ hsource),
    hmem destination (List.mem_append_right _ hdestination)⟩

theorem dvd_commonPeriod {w : Nat} (hw : w ∈ f.connectedTypes) :
    f.lengthAt w ∣ f.commonPeriod :=
  (foldl_lcm_dvd_iff.mp dvd_rfl).2 _ (List.mem_map_of_mem hw)

theorem eq_lengthAt_of_lengthOf {w length : Nat} (h : f.lengthOf w = .ok length) :
    length = f.lengthAt w := by
  rw [lengthOf] at h
  split at h
  · next wire hwire =>
    obtain rfl := Except.ok.inj h
    rw [lengthAt, hwire]
    rfl
  · simp at h

theorem lengthOf_eq {w : Nat} (hw : w < f.wireTypes.length) :
    f.lengthOf w = .ok (f.lengthAt w) := by
  rw [lengthOf, lengthAt, List.getElem?_eq_getElem hw]
  rfl

namespace Resolved

variable (h : f.Resolved)

include h

theorem lt_of_mem_connectedTypes {w : Nat} (hw : w ∈ f.connectedTypes) :
    w < f.wireTypes.length := by
  obtain ⟨r, hr, -, -, hw⟩ := mem_connectedTypes_iff.mp hw
  exact h.type_lt w (List.mem_flatMap.mpr ⟨r, hr, hw⟩)

theorem lengthAt_pos {w : Nat} (hw : w ∈ f.connectedTypes) : 0 < f.lengthAt w := by
  have hlt := h.lt_of_mem_connectedTypes hw
  have hpos := h.length_pos _ (List.getElem_mem hlt)
  rwa [lengthAt, List.getElem?_eq_getElem hlt]

theorem commonPeriod_pos : 0 < f.commonPeriod :=
  foldl_lcm_pos Nat.one_pos fun l hl => by
    obtain ⟨w, hw, rfl⟩ := List.mem_map.mp hl
    exact h.lengthAt_pos hw

end Resolved

/-! ## Pairs of connected wire types -/

/-- The period of every from and to type of a rule. -/
def periodsOf (f : Fabric) (r : Rule) : List Nat :=
  r.fromTypes.flatMap fun source =>
    r.toTypes.map fun destination => Nat.lcm (f.lengthAt source) (f.lengthAt destination)

theorem periodsOf_eq_nil_iff {r : Rule} :
    f.periodsOf r = [] ↔ r.fromTypes = [] ∨ r.toTypes = [] := by
  rw [periodsOf, List.flatMap_eq_nil_iff]
  constructor
  · intro hnil
    rcases List.eq_nil_or_concat r.fromTypes with hfrom | ⟨_, source, hfrom⟩
    · exact .inl hfrom
    · exact .inr (List.map_eq_nil_iff.mp (hnil source (by simp [hfrom])))
  · rintro (hfrom | hto) source hsource
    · simp [hfrom] at hsource
    · rw [hto, List.map_nil]

/-- The periods of all pairs together divide what the connected lengths divide. -/
theorem forall_periodsOf_dvd_iff {n : Nat} :
    (∀ l ∈ f.rules.flatMap f.periodsOf, l ∣ n) ↔ ∀ w ∈ f.connectedTypes, f.lengthAt w ∣ n := by
  constructor
  · intro hall w hw
    obtain ⟨r, hr, hfrom, hto, hw⟩ := mem_connectedTypes_iff.mp hw
    have hpair : ∀ source ∈ r.fromTypes, ∀ destination ∈ r.toTypes,
        Nat.lcm (f.lengthAt source) (f.lengthAt destination) ∣ n :=
      fun source hsource destination hdestination =>
        hall _ (List.mem_flatMap.mpr ⟨r, hr, List.mem_flatMap.mpr
          ⟨source, hsource, List.mem_map_of_mem hdestination⟩⟩)
    rcases List.mem_append.mp hw with hw | hw
    · obtain ⟨destination, hdestination⟩ := List.exists_mem_of_ne_nil _ hto
      exact (Nat.dvd_lcm_left _ _).trans (hpair w hw destination hdestination)
    · obtain ⟨source, hsource⟩ := List.exists_mem_of_ne_nil _ hfrom
      exact (Nat.dvd_lcm_right _ _).trans (hpair source hsource w hw)
  · intro hall l hl
    obtain ⟨r, hr, hl⟩ := List.mem_flatMap.mp hl
    obtain ⟨source, hsource, hl⟩ := List.mem_flatMap.mp hl
    obtain ⟨destination, hdestination, rfl⟩ := List.mem_map.mp hl
    obtain ⟨hsource', hdestination'⟩ := mem_connectedTypes_of_pair hr hsource hdestination
    exact Nat.lcm_dvd (hall source hsource') (hall destination hdestination')

theorem periods_eq_nil_iff : f.rules.flatMap f.periodsOf = [] ↔ f.connectedTypes = [] := by
  simp only [connectedTypes, List.flatMap_eq_nil_iff, periodsOf_eq_nil_iff]
  refine forall₂_congr fun r _ => ?_
  split_ifs with hempty
  · simp [hempty]
  · simp only [hempty, false_iff, List.append_eq_nil_iff]
    tauto

/-- **All pairs together repeat with the least common multiple of the connected lengths.** -/
theorem foldl_lcm_periods {l : Nat} {ls : List Nat} (h : f.rules.flatMap f.periodsOf = l :: ls) :
    ls.foldl Nat.lcm l = f.commonPeriod := by
  have hdvd := @forall_periodsOf_dvd_iff f
  rw [h] at hdvd
  apply Nat.dvd_antisymm
  · exact foldl_lcm_dvd_iff.mpr (List.forall_mem_cons.mp
      (hdvd.mpr fun w hw => dvd_commonPeriod hw))
  · refine foldl_lcm_dvd_iff.mpr ⟨one_dvd _, List.forall_mem_map.mpr (hdvd.mp ?_)⟩
    exact List.forall_mem_cons.mpr (foldl_lcm_dvd_iff.mp dvd_rfl)

/-! ## The period, if it has an answer -/

theorem eq_periodsOf_of_rulePeriods {r : Rule} {ls : List Nat} (h : f.rulePeriods r = .ok ls) :
    ls = f.periodsOf r := by
  obtain ⟨lcms, hlcms, h⟩ := Outcome.bind_eq_ok_iff.mp h
  obtain rfl := Except.ok.inj h
  rw [periodsOf, List.flatMap_def]
  refine congrArg List.flatten (Outcome.eq_map_of_mapM hlcms fun source _ row hrow => ?_)
  refine Outcome.eq_map_of_mapM hrow fun destination _ l hl => ?_
  obtain ⟨length, hlength, hl⟩ := Outcome.bind_eq_ok_iff.mp hl
  obtain ⟨length', hlength', hl⟩ := Outcome.bind_eq_ok_iff.mp hl
  rw [Word.eq_lcm_of_lcm hl, eq_lengthAt_of_lengthOf hlength, eq_lengthAt_of_lengthOf hlength']

theorem eq_periodsOf_of_pairPeriods {ls : List Nat} (h : f.pairPeriods = .ok ls) :
    ls = f.rules.flatMap f.periodsOf := by
  obtain ⟨lcms, hlcms, h⟩ := Outcome.bind_eq_ok_iff.mp h
  obtain rfl := Except.ok.inj h
  rw [List.flatMap_def]
  exact congrArg List.flatten
    (Outcome.eq_map_of_mapM hlcms fun r _ ls hls => eq_periodsOf_of_rulePeriods hls)

/-- Whatever the search for the period answers is that multiple. -/
theorem eq_of_period {n : Nat} (h : f.period = .ok n) :
    n = if f.connectedTypes = [] then 0 else f.commonPeriod := by
  obtain ⟨periods, hperiods, h⟩ := Outcome.bind_eq_ok_iff.mp h
  obtain rfl := eq_periodsOf_of_pairPeriods hperiods
  split at h
  · next hnil =>
    obtain rfl := Except.ok.inj h
    rw [if_pos (periods_eq_nil_iff.mp hnil)]
  · next l ls hcons =>
    have hne : f.connectedTypes ≠ [] := fun hempty => by
      simp [periods_eq_nil_iff.mpr hempty] at hcons
    rw [if_neg hne, ← foldl_lcm_periods hcons]
    exact Word.eq_foldl_lcm_of_foldlM h

namespace Resolved

variable {fault : Fault} (h : f.Resolved) (hlt : f.commonPeriod < Word.count)

include h

theorem eq_overflow_of_rulePeriods {r : Rule} (hr : r ∈ f.rules)
    (hfail : f.rulePeriods r = .error fault) : fault = .overflow := by
  rcases Outcome.bind_eq_error_iff.mp hfail with hfail | ⟨lcms, -, hfail⟩
  · obtain ⟨source, hsource, hfail⟩ := Outcome.exists_of_mapM_eq_error hfail
    obtain ⟨destination, hdestination, hfail⟩ := Outcome.exists_of_mapM_eq_error hfail
    obtain ⟨hsource', hdestination'⟩ := mem_connectedTypes_of_pair hr hsource hdestination
    rw [lengthOf_eq (h.lt_of_mem_connectedTypes hsource'), Outcome.ok_bind,
      lengthOf_eq (h.lt_of_mem_connectedTypes hdestination'), Outcome.ok_bind] at hfail
    exact Word.eq_overflow_of_lcm hfail
  · simp [pure, Except.pure] at hfail

/-- **The search for the period fails by overflow only.** -/
theorem eq_overflow_of_period (hfail : f.period = .error fault) : fault = .overflow := by
  rcases Outcome.bind_eq_error_iff.mp hfail with hfail | ⟨periods, -, hfail⟩
  · rcases Outcome.bind_eq_error_iff.mp hfail with hfail | ⟨lcms, -, hfail⟩
    · obtain ⟨r, hr, hfail⟩ := Outcome.exists_of_mapM_eq_error hfail
      exact h.eq_overflow_of_rulePeriods hr hfail
    · simp [pure, Except.pure] at hfail
  · cases periods with
    | nil => simp [pure, Except.pure] at hfail
    | cons l ls =>
      obtain ⟨_, _, -, hfail⟩ := Outcome.exists_of_foldlM_eq_error hfail
      exact Word.eq_overflow_of_lcm hfail

theorem periodsOf_pos {l : Nat} (hl : l ∈ f.rules.flatMap f.periodsOf) : 0 < l := by
  have hdvd : l ∣ f.commonPeriod :=
    forall_periodsOf_dvd_iff.mpr (fun w hw => dvd_commonPeriod hw) l hl
  exact Nat.pos_of_dvd_of_pos hdvd h.commonPeriod_pos

include hlt

theorem rulePeriods_eq {r : Rule} (hr : r ∈ f.rules) : f.rulePeriods r = .ok (f.periodsOf r) := by
  have hpair : ∀ source ∈ r.fromTypes, ∀ destination ∈ r.toTypes,
      (do Word.lcm (← f.lengthOf source) (← f.lengthOf destination) : Except Fault Nat)
        = .ok (Nat.lcm (f.lengthAt source) (f.lengthAt destination)) := by
    intro source hsource destination hdestination
    obtain ⟨hsource', hdestination'⟩ := mem_connectedTypes_of_pair hr hsource hdestination
    have hle := Nat.le_of_dvd h.commonPeriod_pos
      (Nat.lcm_dvd (dvd_commonPeriod hsource') (dvd_commonPeriod hdestination'))
    rw [lengthOf_eq (h.lt_of_mem_connectedTypes hsource'), Outcome.ok_bind,
      lengthOf_eq (h.lt_of_mem_connectedTypes hdestination'), Outcome.ok_bind,
      Word.lcm_eq (h.lengthAt_pos hsource') (h.lengthAt_pos hdestination') (hle.trans_lt hlt)]
  rw [rulePeriods, Outcome.mapM_eq_ok fun source hsource =>
    Outcome.mapM_eq_ok (hpair source hsource), Outcome.ok_bind]
  rfl

theorem pairPeriods_eq : f.pairPeriods = .ok (f.rules.flatMap f.periodsOf) := by
  have hrules : f.rules.mapM f.rulePeriods = .ok (f.rules.map f.periodsOf) :=
    Outcome.mapM_eq_ok fun r hr => h.rulePeriods_eq hlt hr
  rw [rules] at hrules
  rw [pairPeriods, hrules, Outcome.ok_bind]
  rfl

/-- **The period is the least common multiple of the connected lengths**, or `0` if nothing is
connected. -/
theorem period_eq :
    f.period = .ok (if f.connectedTypes = [] then 0 else f.commonPeriod) := by
  have hpos := @periodsOf_pos f h
  rw [period, h.pairPeriods_eq hlt, Outcome.ok_bind]
  cases hperiods : f.rules.flatMap f.periodsOf with
  | nil =>
    rw [if_pos (periods_eq_nil_iff.mp hperiods)]
    rfl
  | cons l ls =>
    rw [hperiods] at hpos
    have hne : f.connectedTypes ≠ [] := fun hempty => by
      simp [periods_eq_nil_iff.mpr hempty] at hperiods
    have hfold := foldl_lcm_periods hperiods
    rw [if_neg hne, ← hfold]
    exact Word.foldlM_lcm (hpos List.mem_cons_self)
      (fun k hk => hpos (List.mem_cons_of_mem _ hk)) (hfold ▸ hlt)

end Resolved

end Fabric

end FpgaRouting
