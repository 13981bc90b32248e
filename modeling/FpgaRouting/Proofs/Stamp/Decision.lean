import FpgaRouting.Proofs.Stamp.Build

/-!
# Proofs/Stamp/Decision — where planning aborts a build

    lengths ──lcm──▸ periods of pairs ──lcm──▸ period ──+ 1──▸ end of the strip ──▸ fits the width?
                                                               must be a word

The period is multiplied out before it is compared with the width of the device.  While the end of
the reference strip is a word, a period that does not fit leaves a build without a plan, and every
tile is computed.  **From there on the search for the period overflows and aborts the build**, even
of a device whose tiles can all be computed (`connections_of_commonPeriod`).
-/

namespace FpgaRouting

namespace Fabric

variable {f : Fabric} {fault : Fault} {d : StampDecision} {p : Stamping}

/-! ## The decision fails by overflow only -/

namespace Regular

variable (h : f.Regular)

include h

theorem eq_overflow_of_decision (hfail : StampDecision.of f = .error fault) :
    fault = .overflow := by
  rcases Outcome.bind_eq_error_iff.mp hfail with hfail | ⟨n, -, hfail⟩
  · exact h.resolved.eq_overflow_of_period hfail
  · split_ifs at hfail
    · simp [pure, Except.pure] at hfail
    · rcases Outcome.bind_eq_error_iff.mp hfail with hfail | ⟨width, -, hfail⟩
      · exact Word.eq_overflow_of_check hfail
      · dsimp only at hfail
        split_ifs at hfail <;> simp [pure, Except.pure] at hfail

/-- **A period whose strip ends beyond the words cannot be decided on.** -/
theorem decision_eq_overflow (hlong : 2 ^ 64 - 1 ≤ f.commonPeriod) :
    StampDecision.of f = .error .overflow := by
  cases hdecision : StampDecision.of f with
  | error fault => rw [h.eq_overflow_of_decision hdecision]
  | ok d => exact absurd (commonPeriod_lt_of_decision h hdecision) (Nat.not_lt.mpr hlong)

end Regular

/-! ## A period that does not fit -/

/-- **A plan is made only where the period fits the width.** -/
theorem commonPeriod_lt_of_plan (h : StampDecision.of f = .ok d) (hplan : d.plan? = some p) :
    f.commonPeriod < f.device.width := by
  obtain ⟨n, hn, h⟩ := Outcome.bind_eq_ok_iff.mp h
  have hperiod := eq_of_period hn
  split_ifs at h with hzero
  · obtain rfl := Except.ok.inj h
    simp [StampDecision.plan?] at hplan
  · obtain ⟨width, hwidth, h⟩ := Outcome.bind_eq_ok_iff.mp h
    obtain ⟨-, rfl⟩ := Word.check_eq_ok_iff.mp hwidth
    dsimp only at h
    split_ifs at h with hunfit
    · obtain rfl := Except.ok.inj h
      simp [StampDecision.plan?] at hplan
    · have hne : f.connectedTypes ≠ [] := fun hempty => hzero (by rw [hperiod, if_pos hempty])
      rw [if_neg hne] at hperiod
      omega

/-- Without a plan every tile is computed. -/
theorem connections_eq_computedConnections (h : StampDecision.of f = .ok d)
    (hplan : d.plan? = none) : f.connections = f.computedConnections := by
  rw [connections, h, Outcome.liftM_ok, Outcome.ok_bind]
  simp only [hplan]

/-- With a plan that fits, what computing every tile returns is returned too. -/
theorem connections_eq_ok_of_plan (hregular : f.Regular) (h : StampDecision.of f = .ok d)
    (hplan : d.plan? = some p) (hfits : p.Fits f) {m : Connections}
    (hm : f.computedConnections = .ok m) : f.connections = .ok m := by
  rw [connections, h, Outcome.liftM_ok, Outcome.ok_bind]
  simp only [hplan]
  exact (stampedConnections_eq_ok_iff hregular hfits).mpr hm

/-! ## Where a build aborts -/

/-- **Planning aborts a build exactly where the end of the reference strip is no word.**  On an
accepted device within the limit, let the strip end within the words.  The build is then decided, a
period that does not fit the device leaves it without a plan and with every tile computed, and in
any case it returns what computing every tile returns.  Let the strip end beyond the words.  The
decision then overflows, and the build is aborted whether or not every tile can be computed. -/
theorem connections_of_commonPeriod {a : Architecture} (haccept : ofArchitecture a = .ok f)
    (hsize : Moderate a.device a.wireTypes) :
    (f.commonPeriod < 2 ^ 64 - 1 → ∃ d, StampDecision.of f = .ok d ∧
      (f.device.width ≤ f.commonPeriod → d.plan? = none) ∧
      (d.plan? = none → f.connections = f.computedConnections) ∧
      ∀ m, f.computedConnections = .ok m → f.connections = .ok m) ∧
    (2 ^ 64 - 1 ≤ f.commonPeriod → StampDecision.of f = .error .overflow ∧
      f.connections = .error (.aborted .overflow)) := by
  have hregular := regular_of_architecture haccept hsize
  refine ⟨fun hshort => ?_, fun hlong => ?_⟩
  · obtain ⟨d, hd, hfits⟩ := exists_decision hregular hshort
    refine ⟨d, hd, fun hwidth => ?_, connections_eq_computedConnections hd, fun m hm => ?_⟩
    · refine Option.eq_none_iff_forall_ne_some.mpr fun p hplan => ?_
      exact absurd (commonPeriod_lt_of_plan hd hplan) (Nat.not_lt.mpr hwidth)
    · rcases hplan : d.plan? with _ | p
      · rw [connections_eq_computedConnections hd hplan, hm]
      · exact connections_eq_ok_of_plan hregular hd hplan (hfits p hplan) hm
  · have hoverflow := hregular.decision_eq_overflow hlong
    exact ⟨hoverflow, by rw [connections, hoverflow]; rfl⟩

/-- A device of one tile, which joins wires of two lengths that have no common factor. -/
def overlong : Architecture where
  device := ⟨1, 1, 2⟩
  directionality := .bidirectional
  wireTypes := [⟨"even", 1152921504606846976, 1⟩, ⟨"odd", 1152921504606846975, 1⟩]
  switchblocks := [{
    name := "bend"
    directionality := .bidirectional
    switchName := "mux"
    rules := [⟨["even"], ["odd"], none, none, none⟩]
    permutations := (∅ : Permutations).insert ⟨.bottom, .left, Side.bottom_ne_left⟩ ["t"] }]

set_option maxRecDepth 4000 in
/-- The small device is built, the overlong one is not: its decision overflows, and with it the
build, although its one tile can be computed. -/
theorem connections_of_commonPeriod_overlong :
    (∃ f m, ofArchitecture staggered = .ok f ∧ f.computedConnections = .ok m ∧
      f.connections = .ok m) ∧
    ∃ f m, ofArchitecture overlong = .ok f ∧ f.computedConnections = .ok m ∧
      StampDecision.of f = .error .overflow ∧ f.connections = .error (.aborted .overflow) := by
  refine ⟨⟨_, _, by cbv, by cbv, ?_⟩, _, _, by cbv, by cbv, ?_⟩
  · exact Exists.elim ((@connections_of_commonPeriod _ staggered (by cbv) (by decide)).1 (by decide))
      fun d h => h.2.2.2 _ (by cbv)
  · exact (@connections_of_commonPeriod _ overlong (by cbv) (by decide)).2 (by decide)

set_option maxRecDepth 4000 in
/-- **A build can be aborted although every tile can be computed**, and although its period does not
fit the device. -/
theorem not_forall_decision : ¬ ∀ (a : Architecture) (f : Fabric), ofArchitecture a = .ok f →
    Moderate a.device a.wireTypes → (∃ m, f.computedConnections = .ok m) →
    ∃ d, StampDecision.of f = .ok d ∧ (f.device.width ≤ f.commonPeriod → d.plan? = none) ∧
      ∃ m, f.connections = .ok m := by
  have haborted : ∃ f, ofArchitecture overlong = .ok f ∧ (∃ m, f.computedConnections = .ok m) ∧
      StampDecision.of f = .error .overflow := ⟨_, by cbv, ⟨_, by cbv⟩, by cbv⟩
  intro hall
  obtain ⟨f, haccept, hcomputed, hoverflow⟩ := haborted
  obtain ⟨d, hdecision, -⟩ := hall overlong f haccept (by decide) hcomputed
  simp [hoverflow] at hdecision

end Fabric

end FpgaRouting
