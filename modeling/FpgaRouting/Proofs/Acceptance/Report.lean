import FpgaRouting.Proofs.Acceptance.Violations

/-!
# Proofs/Acceptance/Report — the first violation is reported

    check           refused with its violation, or passed
    one by one      refused with the first violation of all
    first, then     refused with the first violation of either, in this order

What can be wrong is spread over nested loops of checks.  A step *reports* what is wrong if it is
refused with the first violation, and such steps can be joined in these three ways.  **So an
architecture is refused with its first violation, and accepted if it has none** (`accept_report`).
A build can start from an accepted one as soon as one list holds its tracks.
-/

namespace FpgaRouting

namespace Outcome

variable {α β : Type} {first first' : Option Refusal}

/-- **A step is refused with its first violation**, and succeeds if it has none. -/
def Reports (first : Option Refusal) (x : Outcome α) : Prop :=
  match first with
  | some r => x = .error (.refused r)
  | none => ∃ a, x = .ok a

namespace Reports

theorem bind {x : Outcome α} {k : α → Outcome β} (hx : Reports first x)
    (hk : ∀ a, x = .ok a → Reports first' (k a)) : Reports (first.or first') (x >>= k) := by
  rcases first with _ | r
  · obtain ⟨a, rfl⟩ := hx
    exact hk a rfl
  · obtain rfl : x = .error (.refused r) := hx
    exact rfl

/-- A step that is followed by one with nothing to report. -/
theorem bind_none {x : Outcome α} {k : α → Outcome β} (hx : Reports first x)
    (hk : ∀ a, x = .ok a → Reports none (k a)) : Reports first (x >>= k) := by
  rw [← Option.or_none (o := first)]
  exact hx.bind hk

/-- A result that is only wrapped up. -/
theorem bind_ok {x : Outcome α} {g : α → β} (hx : Reports first x) :
    Reports first (x >>= fun a => .ok (g a)) :=
  hx.bind_none fun a _ => ⟨g a, rfl⟩

theorem check {c : Prop} [Decidable c] {r : Refusal} {k : α → Outcome β} {x : Outcome β}
    (hx : ¬ c → Reports first x) :
    Reports ((if c then some r else none).or first) (if c then refuse r >>= k else x) := by
  split_ifs with hc
  · exact rfl
  · exact hx hc

/-- **Steps taken one by one report the first violation of all.** -/
theorem mapM {f : α → Outcome β} {violation? : α → Option Refusal} {as : List α}
    (hf : ∀ a ∈ as, Reports (violation? a) (f a)) :
    Reports (as.findSome? violation?) (as.mapM f) := by
  induction as with
  | nil => exact ⟨[], rfl⟩
  | cons a as ih =>
    obtain ⟨ha, has⟩ := List.forall_mem_cons.mp hf
    have hcons : (a :: as).findSome? violation? = (violation? a).or (as.findSome? violation?) := by
      rw [List.findSome?_cons]
      cases violation? a <;> rfl
    rw [hcons, List.mapM_cons]
    exact ha.bind fun b _ => (ih has).bind_ok

theorem exists_eq_ok_iff {x : Outcome α} (hx : Reports first x) :
    (∃ a, x = .ok a) ↔ first = none := by
  rcases first with _ | r
  · exact iff_of_true hx rfl
  · obtain rfl : x = .error (.refused r) := hx
    simp

theorem eq_error_iff {x : Outcome α} {e : Failure} (hx : Reports first x) :
    x = .error e ↔ ∃ r, first = some r ∧ e = .refused r := by
  rcases first with _ | r
  · obtain ⟨a, rfl⟩ := hx
    simp
  · obtain rfl : x = .error (.refused r) := hx
    simp [eq_comm]

end Reports

end Outcome

open Outcome

/-! ## Switchblocks -/

namespace SwitchblockRecord

variable {s : SwitchblockRecord} {d : Directionality} {ws : List WireType}

/-- The order of the entries of a map: that of their side pairs. -/
def Precedes (e e' : SidePair × List String) : Prop := compare e.1 e'.1 = .lt

instance : Std.Irrefl Precedes :=
  ⟨fun e h => by simp [Precedes, Std.ReflCmp.compare_self] at h⟩

instance : Std.Antisymm Precedes :=
  ⟨fun _ _ h h' => absurd h' (Std.OrientedCmp.not_lt_of_lt h)⟩

/-- **The entries of a map of formulas stand in the order of the side pairs.** -/
theorem toList_permutations (m : Permutations) :
    m.toList = SidePair.all.filterMap fun p => m[p]?.map fun texts => (p, texts) := by
  have hall : SidePair.all.Pairwise fun p q => compare p q = .lt := by decide
  have hpairs : (SidePair.all.filterMap fun p => m[p]?.map fun texts => (p, texts)).Pairwise
      Precedes := by
    refine List.pairwise_filterMap.mpr (hall.imp fun hlt e he e' he' => ?_)
    obtain ⟨texts, -, rfl⟩ := Option.map_eq_some_iff.mp he
    obtain ⟨texts', -, rfl⟩ := Option.map_eq_some_iff.mp he'
    exact hlt
  have hkeys : m.toList.Pairwise Precedes := Std.ExtTreeMap.ordered_keys_toList
  refine hkeys.eq_of_mem_iff hpairs fun e => ?_
  rw [Std.ExtTreeMap.mem_toList_iff_getElem?_eq_some, List.mem_filterMap]
  constructor
  · exact fun he => ⟨e.1, SidePair.mem_all _, Option.map_eq_some_iff.mpr ⟨e.2, he, rfl⟩⟩
  · rintro ⟨p, -, hp⟩
    obtain ⟨texts, htexts, rfl⟩ := Option.map_eq_some_iff.mp hp
    exact htexts

/-- **The side pairs are gone through in their order**, and those without formulas do not count. -/
theorem findSome?_permutations {β : Type} {g : SidePair → List String → Option β}
    (hnil : ∀ p, g p [] = none) :
    (s.permutations.toList.findSome? fun e => g e.1 e.2)
      = SidePair.all.findSome? fun p => g p (s.formulas p) := by
  rw [toList_permutations, ← List.head?_filterMap, List.filterMap_filterMap, List.head?_filterMap]
  refine congrArg (List.findSome? · _) (funext fun p => ?_)
  rw [formulas, Std.ExtTreeMap.getD_eq_getD_getElem?]
  rcases s.permutations[p]? with _ | texts
  · exact (hnil p).symm
  · rfl

theorem reports_wireType (name : String) :
    Reports (s.nameViolation? ws name) (s.wireType ws name) := by
  rw [nameViolation?, wireType]
  rcases hindex : ws.findIdx? (·.name = name) with _ | index
  · have hnone : ¬ ∃ w ∈ ws, w.name = name := by simpa using hindex
    rw [hindex, if_neg hnone]
    exact rfl
  · obtain ⟨hlt, hname, -⟩ := List.findIdx?_eq_some_iff_getElem.mp hindex
    rw [hindex, if_pos ⟨ws[index], List.getElem_mem hlt, of_decide_eq_true hname⟩]
    exact ⟨index, rfl⟩

theorem reports_rule (r : RuleRecord) :
    Reports ((r.fromTypes ++ r.toTypes).findSome? (s.nameViolation? ws)) (s.rule ws r) := by
  rw [List.findSome?_append]
  exact (Reports.mapM fun name _ => reports_wireType name).bind fun _ _ =>
    (Reports.mapM fun name _ => reports_wireType name).bind_ok

theorem reports_formula (p : SidePair) (text : String) :
    Reports (s.formulaViolation? p text) (s.formula p text) := by
  rw [formulaViolation?, formula]
  cases Formula.parse text with
  | error e => exact rfl
  | ok f => exact ⟨f, rfl⟩

/-- **A switchblock reports its first violation.** -/
theorem reports_resolve : Reports (s.violations d ws).head? (s.resolve d ws) := by
  rw [violations, List.head?_append, List.head?_append, List.head?_flatMap, List.head?_flatMap,
    apply_ite List.head?, Option.or_assoc]
  simp only [List.head?_filterMap]
  refine Reports.check fun _ => (Reports.mapM fun r _ => reports_rule r).bind fun _ _ => ?_
  rw [← findSome?_permutations fun p => rfl]
  refine Reports.bind_ok (Reports.mapM fun e _ => ?_)
  exact (Reports.mapM fun text _ => reports_formula e.1 text).bind_ok

end SwitchblockRecord

/-! ## Geometry -/

theorem reports_tracksPerType {channelWidth : Nat} {ws : List WireType} {d : Directionality}
    (htotal : (ws.map (·.frequency)).sum < Word.half)
    (hdemand : ∀ w ∈ ws, channelWidth / d.tracksPerWire * w.frequency < Word.half) :
    Reports ((if ¬ d.tracksPerWire ∣ channelWidth then
        some (.config (.unevenWidth channelWidth d)) else none).or
      (if channelWidth ≠ 0 ∧ (ws.map (·.frequency)).sum = 0 then
        some (.config .zeroFrequencies) else none)) (tracksPerType channelWidth ws d) := by
  have hword : (ws.map (·.frequency)).sum < Word.count := htotal.trans (by decide)
  have huneven : ¬ d.tracksPerWire ∣ channelWidth ↔ channelWidth % d.tracksPerWire ≠ 0 :=
    not_congr Nat.dvd_iff_mod_eq_zero
  rw [tracksPerType]
  simp only [huneven]
  refine Reports.check fun heven => ?_
  have hunits : channelWidth ≠ 0 ↔ 0 < channelWidth / d.tracksPerWire := by
    cases d <;> simp only [Directionality.tracksPerWire] at heven ⊢ <;> omega
  simp only [hunits]
  rw [Word.sum_of_lt hword, liftM_ok, ok_bind, ← Option.or_none (o := ite _ _ _)]
  refine Reports.check fun hserved => ?_
  have hleft : channelWidth / d.tracksPerWire = 0 ∨ 0 < (ws.map (·.frequency)).sum :=
    (Nat.eq_zero_or_pos _).imp_right fun hpos => Nat.pos_of_ne_zero fun hzero =>
      hserved ⟨hpos, hzero⟩
  obtain ⟨shares, hshares⟩ := Share.exists_granted hdemand hleft htotal
  rw [Share.mapM_demand hdemand, ofWord_ok, ok_bind, Share.map_demand hdemand,
    Word.toSigned_of_lt htotal, hshares, liftM_ok, ok_bind]
  exact ⟨_, rfl⟩

/-- The number of tracks of all channels of a device. -/
def Device.trackCount (d : Device) : Nat :=
  (d.width * (d.height + 1) + (d.width + 1) * d.height) * d.channelWidth

theorem Fabric.size_tracks_of_accept {a : Architecture} {f : Fabric}
    (hsize : Moderate a.device a.wireTypes) (haccept : accept a = .ok f) :
    f.layout.tracks.size = a.device.trackCount := by
  obtain ⟨-, -, hlayout, -⟩ := accept_eq_ok haccept
  obtain ⟨-, -, hdevice, -⟩ := Layout.lay_eq_ok hlayout
  rw [Layout.size_tracks_eq hsize hlayout, Layout.channelCount, hdevice, ChannelCoord.length_grid,
    Device.trackCount]

section

variable {a : Architecture} (hsize : Moderate a.device a.wireTypes)
  (htotal : a.totalFrequency < Word.half)
  (hdemand : ∀ w ∈ a.wireTypes, a.units * w.frequency < Word.half)

include hsize htotal hdemand

theorem Architecture.reports_lay :
    Reports a.geometryViolations.head? (Layout.lay a.device a.directionality a.wireTypes) := by
  rw [geometryViolations, List.head?_append, List.head?_append, List.head?_append, Layout.lay,
    apply_ite List.head?, apply_ite List.head?, apply_ite List.head?, Option.or_assoc,
    Option.or_assoc]
  refine Reports.check fun htiles => ?_
  rw [List.head?_map, List.head?_filter]
  rcases hzero : a.wireTypes.find? (·.length = 0) with _ | w
  · have hpos : ∀ w ∈ a.wireTypes, 0 < w.length := fun w hw =>
      Nat.pos_of_ne_zero (by simpa using List.find?_eq_none.mp hzero w hw)
    rw [hzero]
    refine (reports_tracksPerType htotal hdemand).bind_none fun counts _ => ?_
    rw [Word.succ_of_le_limit hsize.width_le, liftM_ok, ok_bind,
      Word.succ_of_le_limit hsize.height_le, liftM_ok, ok_bind]
    dsimp only
    rw [Layout.rows_eq hsize hpos, liftM_ok, ok_bind]
    exact ⟨_, rfl⟩
  · rw [hzero]
    exact rfl

/-! ## Architectures -/

namespace Fabric

theorem reports_accept : Reports a.violations.head? (accept a) := by
  rw [Architecture.violations, List.head?_append, List.head?_append, List.head?_map,
    head?_repeatedNames, List.head?_flatMap, Option.or_assoc, accept]
  rcases hname : firstRepeated [] (a.wireTypes.map (·.name)) with _ | name
  · rw [hname]
    exact (Reports.mapM fun s _ => SwitchblockRecord.reports_resolve).bind fun _ _ =>
      (a.reports_lay hsize htotal hdemand).bind_ok
  · rw [hname]
    exact rfl

theorem exists_accept_iff : (∃ f, accept a = .ok f) ↔ a.Consistent := by
  rw [(reports_accept hsize htotal hdemand).exists_eq_ok_iff, List.head?_eq_none_iff,
    a.violations_eq_nil_iff]

/-- **A build can start from consistent records as soon as one list holds the tracks** of all
channels. -/
theorem exists_ofArchitecture_iff :
    (∃ f, ofArchitecture a = .ok f) ↔ a.Consistent ∧ a.device.trackCount < Word.half := by
  rw [← exists_accept_iff hsize htotal hdemand, ← exists_and_right]
  refine exists_congr fun f => ofArchitecture_eq_ok_iff.trans (and_congr_right fun haccept => ?_)
  rw [size_tracks_of_accept hsize haccept]

end Fabric

end

namespace Fabric

/-- **Acceptance is exact.**  Within the limit, let the frequencies together and the demand of each
wire type be signed words.  There is no violation exactly if the records are consistent, and an
architecture is accepted exactly then.  It fails exactly by being refused with its first
violation. -/
theorem accept_report {a : Architecture} (hsize : Moderate a.device a.wireTypes)
    (htotal : a.totalFrequency < 2 ^ 63)
    (hdemand : ∀ w ∈ a.wireTypes, a.units * w.frequency < 2 ^ 63) :
    (a.violations = [] ↔ a.Consistent) ∧
    ((∃ f, accept a = .ok f) ↔ a.Consistent) ∧
    ∀ e, accept a = .error e ↔ ∃ r, a.violations.head? = some r ∧ e = .refused r :=
  ⟨a.violations_eq_nil_iff, exists_accept_iff hsize htotal hdemand,
    fun _ => (reports_accept hsize htotal hdemand).eq_error_iff⟩

/-- Records with a formula that cannot be parsed in the first switchblock, a directionality and a
name that do not fit in the second, and three faults of the geometry. -/
def garbled : Architecture where
  device := ⟨1, 0, 3⟩
  directionality := .unidirectional
  wireTypes := [⟨"short", 1, 1⟩, ⟨"none", 0, 1⟩]
  switchblocks := [{
    name := "bend"
    directionality := .unidirectional
    switchName := "mux"
    rules := [⟨["short"], ["none"], none, none, none⟩]
    permutations := (∅ : Permutations).insert ⟨.bottom, .left, by decide⟩ ["t", "t +"] }, {
    name := "cross"
    directionality := .bidirectional
    switchName := "mux"
    rules := [⟨["long"], [], none, none, none⟩] }]

/-- A consistent device whose tracks no list can hold. -/
def vast : Architecture where
  device := ⟨2 ^ 60, 2 ^ 60, 2⟩
  directionality := .bidirectional
  wireTypes := [⟨"short", 1, 1⟩]
  switchblocks := [{
    name := "bend"
    directionality := .bidirectional
    switchName := "pass"
    rules := [⟨["short"], ["short"], none, none, none⟩]
    permutations := (∅ : Permutations).insert ⟨.bottom, .left, by decide⟩ ["W - t"] }]

/-- Of the six violations of the garbled records, the formula is the first; the vast device is
accepted. -/
theorem accept_report_garbled :
    garbled.violations.length = 6 ∧
    accept garbled
      = .error (.refused (.formula "bend" ⟨.bottom, .left, by decide⟩ ⟨"t +", .missingOperand⟩)) ∧
    ∃ f, accept vast = .ok f := by
  refine ⟨by cbv, ?_, ?_⟩
  · obtain ⟨-, -, hrefused⟩ := @accept_report garbled (by decide) (by decide) (by decide)
    exact (hrefused _).mpr ⟨_, by cbv, rfl⟩
  · obtain ⟨hconsistent, haccepted, -⟩ := @accept_report vast (by decide) (by decide) (by decide)
    exact haccepted.mpr (hconsistent.mp (by cbv))

end Fabric

end FpgaRouting
