import FpgaRouting.Proofs.Build.Closure
import FpgaRouting.Proofs.Formula.Evaluation

/-!
# Proofs/Build/Failures — what can still go wrong after acceptance

    device ── tiles ── keys ── switchblocks ── rules ── formulas
                                                           └── 8 / t  fails at t = 0

Within the limit every track has its group, every rule with destinations selects one of them, and
every formula in a fabric is parsed from a text of the architecture.  A step that fails therefore
fails with one formula, and **the failure is the arithmetic of a formula that the architecture lists
for the side pair reported** (`arithmeticFailure_of_error`).  No build is refused for its records or
its geometry any more, and none is aborted.
-/

namespace FpgaRouting

/-- **A failure that is the arithmetic of a formula**, which some switchblock of the architecture
lists for the side pair that is reported. -/
def Architecture.ArithmeticFailure (a : Architecture) (e : Failure) : Prop :=
  ∃ s ∈ a.switchblocks, ∃ (p : SidePair), ∃ text ∈ s.formulas p, ∃ cause : Formula.Cause,
    cause.IsArithmetic ∧ e = .refused (.formula s.name p ⟨text, cause⟩)

/-! ## Where the formulas of a fabric come from -/

theorem Switchblock.exists_of_mem_formulas {s : Switchblock} {p : SidePair} {g : Formula}
    (h : g ∈ s.formulas p) : ∃ gs, (p, gs) ∈ s.permutations ∧ g ∈ gs := by
  rw [formulas] at h
  cases hlookup : s.permutations.lookup p with
  | none =>
    rw [hlookup] at h
    exact absurd h List.not_mem_nil
  | some gs =>
    rw [hlookup] at h
    obtain ⟨before, after, heq, -⟩ := List.lookup_eq_some_iff.mp hlookup
    refine ⟨gs, ?_, h⟩
    rw [heq]
    exact List.mem_append_right _ List.mem_cons_self

/-- **A formula of a switchblock is parsed** from a text of its record, for the same side pair. -/
theorem SwitchblockRecord.exists_text_of_resolve {record : SwitchblockRecord} {d : Directionality}
    {ws : List WireType} {s : Switchblock} (h : record.resolve d ws = .ok s) :
    s.name = record.name ∧
      ∀ p, ∀ g ∈ s.formulas p, ∃ text ∈ record.formulas p, Formula.parse text = .ok g := by
  rw [resolve] at h
  obtain ⟨-, h⟩ := Outcome.check_eq_ok_iff.mp h
  obtain ⟨rules, -, h⟩ := Outcome.bind_eq_ok_iff.mp h
  obtain ⟨permutations, hpermutations, h⟩ := Outcome.bind_eq_ok_iff.mp h
  obtain rfl := Except.ok.inj h
  refine ⟨rfl, fun p g hg => ?_⟩
  obtain ⟨gs, hgs, hg⟩ := Switchblock.exists_of_mem_formulas hg
  obtain ⟨⟨p', texts⟩, htexts, hparsed⟩ :=
    Outcome.exists_of_mem_mapM hpermutations (List.mem_of_mem_filter hgs)
  obtain ⟨gs', hgs', hpair⟩ := Outcome.bind_eq_ok_iff.mp hparsed
  obtain ⟨rfl, rfl⟩ := Prod.mk.inj (Except.ok.inj hpair)
  obtain ⟨text, htext, hformula⟩ := Outcome.exists_of_mem_mapM hgs' hg
  refine ⟨text, ?_, ?_⟩
  · rw [SwitchblockRecord.formulas, Std.ExtTreeMap.getD_eq_getD_getElem?,
      Std.ExtTreeMap.mem_toList_iff_getElem?_eq_some.mp htexts]
    exact htext
  · rw [formula] at hformula
    split at hformula
    · next f hparse => rw [hparse, Except.ok.inj hformula]
    · simp [Outcome.refuse] at hformula

/-- A rule that fails to contribute does so with a formula of the side pair. -/
theorem Switchblock.exists_formula_of_mem_contributions {s : Switchblock} {d : Directionality}
    {p : SidePair} {source destination : Channel} {track : Nat} {e : Failure}
    (h : Except.error e ∈ s.contributions d p source destination track) :
    ∃ g ∈ s.formulas p, ∃ (b : Formula.Binding) (err : Formula.Error), g.eval b = .error err ∧
      e = .refused (.formula s.name p err) := by
  obtain ⟨r, -, h⟩ := List.mem_flatMap.mp h
  rw [ruleContributions] at h
  split at h
  · exact absurd h List.not_mem_nil
  · split_ifs at h
    · exact absurd h List.not_mem_nil
    obtain ⟨g, hg, hcontribution⟩ := List.mem_map.mp h
    rw [contribution] at hcontribution
    split at hcontribution
    · next err heval => exact ⟨g, hg, _, err, heval, (Except.error.inj hcontribution).symm⟩
    · simp at hcontribution

namespace Fabric

variable {a : Architecture} {f : Fabric} {k : Key} {t : Tile} {e : Failure}

/-- A switchblock of an accepted fabric is that of a record. -/
theorem exists_record_of_mem (haccept : ofArchitecture a = .ok f) {s : Switchblock}
    (hs : s ∈ f.switchblocks) :
    ∃ record ∈ a.switchblocks, record.resolve a.directionality a.wireTypes = .ok s := by
  obtain ⟨-, hswitchblocks, -⟩ := ofArchitecture_eq_ok haccept
  exact Outcome.exists_of_mem_mapM hswitchblocks hs

/-! ## From one switchblock to a build -/

section

variable (haccept : ofArchitecture a = .ok f) (hsize : Moderate a.device a.wireTypes)

include haccept

/-- The evaluation of a formula of the fabric fails with arithmetic. -/
theorem arithmeticFailure_of_eval {s : Switchblock} (hs : s ∈ f.switchblocks) {p : SidePair}
    {g : Formula} (hg : g ∈ s.formulas p) {b : Formula.Binding} {err : Formula.Error}
    (h : g.eval b = .error err) : a.ArithmeticFailure (.refused (.formula s.name p err)) := by
  obtain ⟨record, hrecord, hresolve⟩ := exists_record_of_mem haccept hs
  obtain ⟨hname, hformulas⟩ := record.exists_text_of_resolve hresolve
  obtain ⟨text, htext, hparse⟩ := hformulas p g hg
  obtain ⟨rfl, hcause⟩ := Formula.isArithmetic_of_eval hparse h
  exact ⟨record, hrecord, p, err.text, htext, err.cause, hcause, by rw [hname]⟩

include hsize

/-- **A key fails in a switchblock with a formula of it.**  A key that leads nowhere does not
fail. -/
theorem arithmeticFailure_of_targetsIn (hx : k.x < 2 ^ 64 - 1) (hy : k.y < 2 ^ 64 - 1)
    {s : Switchblock} (hs : s ∈ f.switchblocks) (h : f.targetsIn k s = .error e) :
    a.ArithmeticFailure e := by
  have hregular := regular_of_architecture haccept hsize
  by_cases hsides : k.enter = k.leave
  · simp [targetsIn_of_enter_eq_leave hsides] at h
  have hsource := f.channelAt?_eq (t := k.tile) hx hy k.enter
  have hdestination := f.channelAt?_eq (t := k.tile) hx hy k.leave
  rcases hsome : f.layout.channel? (ChannelCoord.beside k.tile k.enter) with _ | source
  · simp [targetsIn_of_missing hsource hdestination (.inl hsome)] at h
  rcases hsome' : f.layout.channel? (ChannelCoord.beside k.tile k.leave) with _ | destination
  · simp [targetsIn_of_missing hsource hdestination (.inr (.inl hsome'))] at h
  rw [hsome] at hsource
  rw [hsome'] at hdestination
  rcases Nat.lt_or_ge k.track source.tracks.size with htrack | htrack
  · rw [hregular.targetsIn_eq (p := ⟨k.enter, k.leave, hsides⟩) rfl rfl hsource hdestination
      htrack] at h
    obtain ⟨o, ho, rfl⟩ := Outcome.exists_of_mapM_eq_error h
    obtain ⟨g, hg, b, err, heval, rfl⟩ := Switchblock.exists_formula_of_mem_contributions ho
    exact arithmeticFailure_of_eval haccept hs hg heval
  · rw [targetsIn_of_missing hsource hdestination (.inr (.inr (by simpa using htrack)))] at h
    simp at h

theorem arithmeticFailure_of_targets (hx : k.x < 2 ^ 64 - 1) (hy : k.y < 2 ^ 64 - 1)
    (h : f.targets k = .error e) : a.ArithmeticFailure e := by
  obtain ⟨s, hs, hfail⟩ := exists_of_targets_eq_error h
  exact arithmeticFailure_of_targetsIn haccept hsize hx hy hs hfail

/-- **A tile fails with one of its keys.** -/
theorem arithmeticFailure_of_tileAdditions (hx : t.x < 2 ^ 64 - 1) (hy : t.y < 2 ^ 64 - 1)
    (h : f.tileAdditions t = .error e) : a.ArithmeticFailure e := by
  obtain ⟨k, hk, s, hs, hkey⟩ := exists_of_tileAdditions_eq_error h
  obtain rfl := tile_of_mem_keysAt hk
  exact arithmeticFailure_of_targetsIn haccept hsize hx hy hs hkey

theorem arithmeticFailure_of_connectionsOver {ts : List Tile}
    (hts : ∀ t ∈ ts, t.x < 2 ^ 64 - 1 ∧ t.y < 2 ^ 64 - 1) (h : f.connectionsOver ts = .error e) :
    a.ArithmeticFailure e := by
  rw [connectionsOver, Connections.foldlM_addPairs addTile_eq, Outcome.map_eq_error_iff] at h
  obtain ⟨t, ht, hfail⟩ := Outcome.exists_of_mapM_eq_error h
  exact arithmeticFailure_of_tileAdditions haccept hsize (hts t ht).1 (hts t ht).2 hfail

end

/-- **After acceptance only the arithmetic of a formula can fail.**  On an accepted device within
the limit, a key, a tile, a build over some tiles and the build that computes every tile can end
without a result in one way: a formula that the architecture lists divides by zero or overflows. -/
theorem arithmeticFailure_of_error (haccept : ofArchitecture a = .ok f)
    (hsize : Moderate a.device a.wireTypes) :
    (∀ k : Key, k.x < 2 ^ 64 - 1 → k.y < 2 ^ 64 - 1 → ∀ e, f.targets k = .error e →
      a.ArithmeticFailure e) ∧
    (∀ t : Tile, t.x < 2 ^ 64 - 1 → t.y < 2 ^ 64 - 1 → ∀ e, f.connectionsAt t = .error e →
      a.ArithmeticFailure e) ∧
    (∀ ts : List Tile, (∀ t ∈ ts, t.x < 2 ^ 64 - 1 ∧ t.y < 2 ^ 64 - 1) →
      ∀ e, f.connectionsOver ts = .error e → a.ArithmeticFailure e) ∧
    ∀ e, f.computedConnections = .error e → a.ArithmeticFailure e := by
  have hover := fun ts hts e h =>
    @arithmeticFailure_of_connectionsOver a f e haccept hsize ts hts h
  refine ⟨fun k hx hy e h => arithmeticFailure_of_targets haccept hsize hx hy h,
    fun t hx hy e h => ?_, hover, hover f.tiles fun t ht => ?_⟩
  · rw [connectionsAt_eq_connectionsOver] at h
    exact hover [t] (List.forall_mem_singleton.mpr ⟨hx, hy⟩) e h
  · exact (regular_of_architecture haccept hsize).lt_of_mem_tiles ht

/-- A device of one tile, with a formula that has no value for the first source. -/
def reciprocal : Architecture where
  device := ⟨1, 1, 2⟩
  directionality := .bidirectional
  wireTypes := [⟨"short", 1, 1⟩]
  switchblocks := [{
    name := "bend"
    directionality := .bidirectional
    switchName := "mux"
    rules := [⟨["short"], ["short"], none, none, none⟩]
    permutations := (∅ : Permutations).insert ⟨.bottom, .left, Side.bottom_ne_left⟩ ["t", "8 / t"] }]

set_option maxRecDepth 4000 in
/-- Its first source, and with it the build, fails with the second formula. -/
theorem arithmeticFailure_of_error_reciprocal : ∃ f e, ofArchitecture reciprocal = .ok f ∧
    f.targets ⟨1, 1, .bottom, .left, 0⟩ = .error e ∧ f.computedConnections = .error e ∧
    e = .refused (.formula "bend" ⟨.bottom, .left, by decide⟩ ⟨"8 / t", .divisionByZero⟩) ∧
    reciprocal.ArithmeticFailure e := by
  refine ⟨_, _, by cbv, by cbv, by cbv, rfl, ?_⟩
  exact (@arithmeticFailure_of_error reciprocal _ (by cbv) (by decide)).1
    ⟨1, 1, .bottom, .left, 0⟩ (by decide) (by decide) _ (by cbv)

end Fabric

end FpgaRouting
