import FpgaRouting.Build.Connect
import FpgaRouting.Proofs.Channel.Admission
import FpgaRouting.Proofs.Connections.Additions
import FpgaRouting.Proofs.Fabric

/-!
# Proofs/Build/Contributions — the targets of a key, rule by rule

    sources       S   admitted on the entering side      4   6   9        the track 6 is at t = 1
    destinations  D   admitted on the leaving side       1   3   5   7    W = 4
    formula           t * 3 - 4   ──▸  -1  ──▸  -1 mod 4 = 3  ──▸  the track 7

A rule contributes to a track that stands among its sources, one target for each formula of the side
pair.  The search for candidates and the rules that are passed over before it are left out here:
**the targets of a key are the contributions of all rules of all switchblocks in order, each once,
or the first failure among them** (`targets_eq_contributions`).
-/

namespace FpgaRouting

/-! ## What a rule contributes -/

namespace Switchblock

/-- **What a formula contributes** to the `t`-th source: of the destinations the one that its value
selects, counted modulo their number. -/
def contribution (s : Switchblock) (p : SidePair) (destinations : List Nat) (t : Nat)
    (switchName : String) (f : Formula) : Outcome Target :=
  match f.eval ⟨destinations.length, t⟩ with
  | .error e => Outcome.refuse (.formula s.name p e)
  | .ok value => .ok ⟨destinations.getD (value % destinations.length).toNat 0, switchName⟩

/-- What a rule contributes to a source track.  It needs destinations, and the track must be one of
its sources. -/
def ruleContributions (s : Switchblock) (d : Directionality) (p : SidePair)
    (source destination : Channel) (track : Nat) (r : Rule) : List (Outcome Target) :=
  let sources := source.admitted p.enter r.fromTypes r.fromPoints (p.enter.sourceHeading d)
  let destinations :=
    destination.admitted p.leave r.toTypes r.toPoints (p.leave.destinationHeading d)
  match sources.idxOf? track with
  | none => []
  | some t =>
    if destinations = [] then []
    else (s.formulas p).map (s.contribution p destinations t r.switchName)

/-- What the rules of a switchblock contribute, in order. -/
def contributions (s : Switchblock) (d : Directionality) (p : SidePair)
    (source destination : Channel) (track : Nat) : List (Outcome Target) :=
  s.rules.flatMap (s.ruleContributions d p source destination track)

end Switchblock

/-- What all switchblocks contribute, in order. -/
def Fabric.contributions (f : Fabric) (p : SidePair) (source destination : Channel) (track : Nat) :
    List (Outcome Target) :=
  f.switchblocks.flatMap (·.contributions f.directionality p source destination track)

/-! ## The value of a formula, as an index -/

theorem toNat_emod_lt {size : Nat} (hpos : 0 < size) (value : Int) :
    (value % size).toNat < size := by
  have hhigh := Int.emod_lt_of_pos value (Int.natCast_pos.mpr hpos)
  omega

theorem Formula.wrap_eq {size : Nat} (hpos : 0 < size) (hlt : size < Word.half) (value : Int) :
    Formula.wrap value size = .ok (some (value % size).toNat) := by
  rw [wrap, if_neg hpos.ne', Word.toSigned_of_lt hlt, if_neg (by omega), Option.filter_some,
    if_pos (decide_eq_true (toNat_emod_lt hpos value))]

namespace Switchblock

variable {ws : List WireType} {counts : List Nat} {d : Directionality}
  {source destination : Channel} {track : Nat}

/-- **Among destinations, a value selects one.** -/
theorem select_eq {destinations : List Nat} (hne : destinations ≠ [])
    (hlt : destinations.length < Word.half) {t : Nat} (ht : t < Word.half) (s : Switchblock)
    (p : SidePair) (switchName : String) (f : Formula) :
    (do return ⟨← s.select p destinations t f, switchName⟩ : Outcome Target)
      = s.contribution p destinations t switchName f := by
  have hpos := List.length_pos_of_ne_nil hne
  rw [select, contribution, Word.toSigned_of_lt hlt, Word.toSigned_of_lt ht]
  rcases f.eval ⟨destinations.length, t⟩ with e | value
  · rfl
  · have hindex := toNat_emod_lt hpos value
    simp only [Formula.wrap_eq hpos hlt, Outcome.liftM_ok, Outcome.ok_bind,
      List.getD_eq_getElem?_getD, List.getElem?_eq_getElem hindex]
    rfl

/-! ## Rules that are passed over -/

/-- A rule that admits a source names it. -/
theorem namesSource_of_admits {r : Rule} {slot : Slot} (hsource : source.Laid ws counts d)
    (hslot : (slots (Block.sequence 0 0 ws counts))[track]? = some slot) {side : Side}
    {heading : Heading}
    (hadmits : source.admits side r.fromTypes r.fromPoints heading track = true) :
    r.namesSource slot.block.wireType (source.seen d side slot) = true := by
  obtain ⟨slot', hslot', htype, hpoints, -⟩ := hsource.admits_iff.mp hadmits
  obtain rfl := Option.some.inj (hslot.symm.trans hslot')
  rw [Rule.namesSource, Bool.and_eq_true, List.contains_iff_mem, Option.all_eq_true]
  exact ⟨htype, fun ps hps => List.contains_iff_mem.mpr (hpoints ps hps)⟩

section

variable (hsource : source.Laid ws counts d) (hdestination : destination.Laid ws counts d)

include hsource hdestination

/-- **A rule contributes its targets**: the early tests only pass over rules that have none. -/
theorem ruleTargets_eq (s : Switchblock) (p : SidePair) {slot : Slot}
    (hslot : (slots (Block.sequence 0 0 ws counts))[track]? = some slot) (r : Rule) :
    s.ruleTargets d p source destination slot.block.wireType (source.seen d p.enter slot) track r
      = (s.ruleContributions d p source destination track r).mapM id := by
  rw [ruleTargets, ruleContributions, hsource.candidates_eq, hdestination.candidates_eq]
  simp only [Outcome.ok_bind]
  set sources := source.admitted p.enter r.fromTypes r.fromPoints (p.enter.sourceHeading d)
    with hsources
  set destinations :=
    destination.admitted p.leave r.toTypes r.toPoints (p.leave.destinationHeading d)
    with hdestinations
  by_cases hmem : track ∈ sources
  · have hnames : r.namesSource slot.block.wireType (source.seen d p.enter slot) = true :=
      namesSource_of_admits hsource hslot (hsource.mem_admitted_iff.mp hmem)
    obtain ⟨t, ht⟩ := Option.ne_none_iff_exists'.mp fun hnone =>
      List.idxOf?_eq_none_iff.mp hnone hmem
    simp only [hnames, ht, Bool.not_true, Bool.false_eq_true, if_false, List.isEmpty_iff]
    split_ifs with hnil
    · rfl
    have htlt : t < Word.half := by
      obtain ⟨hlt, -⟩ := List.idxOf?_eq_some_iff.mp ht
      exact (hlt.trans_le (source.length_admitted_le _ _ _ _)).trans hsource.size_lt
    have hlt : destinations.length < Word.half :=
      (destination.length_admitted_le _ _ _ _).trans_lt hdestination.size_lt
    rw [List.mapM_map]
    exact Outcome.mapM_congr fun f _ => select_eq hnil hlt htlt s p r.switchName f
  · have hnone := List.idxOf?_eq_none_iff.mpr hmem
    simp only [hnone]
    split_ifs <;> rfl

theorem route_eq (s : Switchblock) (p : SidePair) (htrack : track < source.tracks.size) :
    s.route d p source destination track
      = (s.contributions d p source destination track).mapM id := by
  obtain ⟨slot, hslot, -⟩ := hsource.exists_slot htrack
  rw [route, hsource.track_eq hslot, Outcome.liftM_ok, Outcome.ok_bind,
    hsource.wirepoint_eq hslot, Outcome.ok_bind, contributions, Outcome.mapM_flatMap]
  exact congrArg (List.flatten <$> ·) (Outcome.mapM_congr fun r _ =>
    ruleTargets_eq hsource hdestination s p hslot r)

end

/-- A switchblock without formulas for a side pair contributes nothing. -/
theorem contributions_of_formulas_eq_nil {s : Switchblock} {p : SidePair}
    (h : s.formulas p = []) : s.contributions d p source destination track = [] := by
  refine List.flatMap_eq_nil_iff.mpr fun r _ => ?_
  rw [ruleContributions, h]
  split
  · rfl
  · split_ifs <;> rfl

end Switchblock

/-! ## The targets of a key -/

namespace Fabric

variable {f : Fabric} {k : Key} {p : SidePair} {source destination : Channel}

theorem targetsIn_of_enter_eq_leave (h : k.enter = k.leave) (s : Switchblock) :
    f.targetsIn k s = .ok [] := by
  rw [targetsIn, SidePair.of?, dif_neg (not_not.mpr h)]
  rfl

/-- **A key has the targets that a switchblock contributes.** -/
theorem Regular.targetsIn_eq (h : f.Regular) (henter : p.enter = k.enter)
    (hleave : p.leave = k.leave) (hsource : f.layout.channelAt? k.tile k.enter = .ok (some source))
    (hdestination : f.layout.channelAt? k.tile k.leave = .ok (some destination))
    (htrack : k.track < source.tracks.size) (s : Switchblock) :
    f.targetsIn k s
      = (s.contributions f.directionality p source destination k.track).mapM id := by
  have hpair : SidePair.of? k.enter k.leave = some p := henter ▸ hleave ▸ p.of?_eq_some
  rw [targetsIn, hpair]
  simp only [List.isEmpty_iff]
  split_ifs with hnil
  · rw [Switchblock.contributions_of_formulas_eq_nil hnil]
    rfl
  · rw [henter, hleave, hsource, hdestination]
    simp only [Outcome.liftM_ok, Outcome.ok_bind, if_neg (Nat.not_le_of_lt htrack)]
    exact Switchblock.route_eq (h.laid_of_channelAt? hsource).1
      (h.laid_of_channelAt? hdestination).1 s p htrack

/-- **A side without a channel, and a track that no channel has, are no failure.** -/
theorem targetsIn_of_missing {source? destination? : Option Channel}
    (hsource : f.layout.channelAt? k.tile k.enter = .ok source?)
    (hdestination : f.layout.channelAt? k.tile k.leave = .ok destination?)
    (hmissing : source? = none ∨ destination? = none
      ∨ ∀ source ∈ source?, source.tracks.size ≤ k.track) (s : Switchblock) :
    f.targetsIn k s = .ok [] := by
  by_cases hsides : k.enter = k.leave
  · exact targetsIn_of_enter_eq_leave hsides s
  rw [targetsIn, SidePair.of?, dif_pos hsides]
  simp only [hsource, hdestination, Outcome.liftM_ok, Outcome.ok_bind]
  split_ifs
  · rfl
  · rcases source? with _ | source
    · rfl
    rcases destination? with _ | destination
    · rfl
    · simp only [reduceCtorEq, false_or, Option.mem_some_iff, forall_eq'] at hmissing
      exact if_pos hmissing

theorem targets_eq_map (f : Fabric) (k : Key) :
    f.targets k
      = (fun tss => tss.flatten.foldl addOnce []) <$> f.switchblocks.mapM (f.targetsIn k) := by
  refine Outcome.foldlM_eq_map_flatten (fun ts s => ?_) [] f.switchblocks
  cases f.targetsIn k s <;> rfl

theorem targets_of_targetsIn (h : ∀ s ∈ f.switchblocks, f.targetsIn k s = .ok []) :
    f.targets k = .ok [] := by
  rw [targets_eq_map, Outcome.mapM_eq_ok h]
  simp [Functor.map, Except.map]

/-- **A key fails in one of the switchblocks.** -/
theorem exists_of_targets_eq_error {e : Failure} (h : f.targets k = .error e) :
    ∃ s ∈ f.switchblocks, f.targetsIn k s = .error e := by
  rw [targets_eq_map, Outcome.map_eq_error_iff] at h
  exact Outcome.exists_of_mapM_eq_error h

/-- **A key that leads nowhere has no targets**: its sides are one, or lack a channel, or its track
is none of theirs. -/
theorem Regular.targets_eq_nil (h : f.Regular) (hx : k.x < 2 ^ 64 - 1) (hy : k.y < 2 ^ 64 - 1)
    (hnowhere : k.enter = k.leave ∨ ¬ f.HasChannel k.tile k.enter ∨ ¬ f.HasChannel k.tile k.leave
      ∨ f.device.channelWidth ≤ k.track) : f.targets k = .ok [] := by
  have hsource := f.channelAt?_eq (t := k.tile) hx hy k.enter
  have hdestination := f.channelAt?_eq (t := k.tile) hx hy k.leave
  refine targets_of_targetsIn fun s _ => ?_
  rcases hnowhere with hsides | hmissing | hmissing | htrack
  · exact targetsIn_of_enter_eq_leave hsides s
  · refine targetsIn_of_missing hsource hdestination (.inl ?_) s
    exact Option.eq_none_iff_forall_not_mem.mpr fun c hc => hmissing ⟨c, by rw [hsource, hc]⟩
  · refine targetsIn_of_missing hsource hdestination (.inr (.inl ?_)) s
    exact Option.eq_none_iff_forall_not_mem.mpr fun c hc => hmissing ⟨c, by rw [hdestination, hc]⟩
  · refine targetsIn_of_missing hsource hdestination (.inr (.inr fun c hc => ?_)) s
    exact (h.size_tracks_eq (hsource.trans (congrArg Except.ok hc))).trans_le htrack

theorem Regular.targets_eq (h : f.Regular) (henter : p.enter = k.enter)
    (hleave : p.leave = k.leave) (hsource : f.layout.channelAt? k.tile k.enter = .ok (some source))
    (hdestination : f.layout.channelAt? k.tile k.leave = .ok (some destination))
    (htrack : k.track < f.device.channelWidth) :
    f.targets k = List.eraseDups <$> (f.contributions p source destination k.track).mapM id := by
  have htrack' : k.track < source.tracks.size := h.size_tracks_eq hsource ▸ htrack
  have hin := fun s => h.targetsIn_eq henter hleave hsource hdestination htrack' s
  have honce : ∀ ts : List Target, ts.foldl addOnce [] = ts.eraseDups := by
    intro ts
    simp [foldl_addOnce_eq]
  rw [targets_eq_map, Outcome.mapM_congr fun s _ => hin s, contributions, Outcome.mapM_flatMap,
    Functor.map_map]
  exact congrArg (· <$> _) (funext fun tss => honce tss.flatten)

/-- **The targets of a key are what all rules contribute.**  On an accepted device within the limit,
a key whose sides are one, or lack a channel, or whose track is none of theirs has no targets.  Of
any other key the targets are the contributions of the rules, switchblock by switchblock, rule by
rule and formula by formula, without those that have stood before; or the first failure among
them. -/
theorem targets_eq_contributions {a : Architecture} (haccept : ofArchitecture a = .ok f)
    (hsize : Moderate a.device a.wireTypes) (hx : k.x < 2 ^ 64 - 1) (hy : k.y < 2 ^ 64 - 1) :
    (k.enter = k.leave ∨ ¬ f.HasChannel k.tile k.enter ∨ ¬ f.HasChannel k.tile k.leave
      ∨ f.device.channelWidth ≤ k.track → f.targets k = .ok []) ∧
    ∀ (p : SidePair) (source destination : Channel), p.enter = k.enter → p.leave = k.leave →
      f.layout.channelAt? k.tile k.enter = .ok (some source) →
      f.layout.channelAt? k.tile k.leave = .ok (some destination) →
      k.track < f.device.channelWidth →
      f.targets k = List.eraseDups <$> (f.contributions p source destination k.track).mapM id := by
  have hregular := regular_of_architecture haccept hsize
  refine ⟨hregular.targets_eq_nil hx hy, ?_⟩
  intro p source destination henter hleave hsource hdestination htrack
  exact hregular.targets_eq henter hleave hsource hdestination htrack

/-- A small device of unidirectional wires of the lengths `1` and `2`, with a rule that lists its
types in another order than the device, and a formula that counts back. -/
def oneWay : Architecture where
  device := ⟨2, 2, 4⟩
  directionality := .unidirectional
  wireTypes := [⟨"short", 1, 1⟩, ⟨"long", 2, 1⟩]
  switchblocks := [{
    name := "turn"
    directionality := .unidirectional
    switchName := "mux"
    rules := [⟨["long", "short"], ["short", "long"], none, some [0], none⟩]
    permutations := (∅ : Permutations).insert ⟨.bottom, .right, by decide⟩ ["t", "t - 1", "t"] }]

set_option maxRecDepth 4000 in
/-- A source of it that is the first of its kind: the second formula selects the last
destination, the third nothing new. -/
theorem targets_eq_contributions_oneWay : ∃ f source destination, ofArchitecture oneWay = .ok f ∧
    f.layout.channelAt? ⟨1, 1⟩ .bottom = .ok (some source) ∧
    f.layout.channelAt? ⟨1, 1⟩ .right = .ok (some destination) ∧
    f.targets ⟨1, 1, .bottom, .right, 0⟩
      = List.eraseDups
        <$> (f.contributions ⟨.bottom, .right, by decide⟩ source destination 0).mapM id ∧
    f.targets ⟨1, 1, .bottom, .right, 0⟩ = .ok [⟨0, "mux"⟩, ⟨2, "mux"⟩] := by
  refine ⟨_, _, _, by cbv, by cbv, by cbv, ?_, by cbv⟩
  exact (@targets_eq_contributions _ ⟨1, 1, .bottom, .right, 0⟩ oneWay (by cbv) (by decide)
    (by decide) (by decide)).2 ⟨.bottom, .right, by decide⟩ _ _ rfl rfl (by cbv) (by cbv) (by cbv)

end Fabric

end FpgaRouting
