import FpgaRouting.Proofs.Stamp.Copies
import FpgaRouting.Proofs.Stamp.Period

/-!
# Proofs/Stamp/Build — the stamped build is the computed one

    computed tiles ──▸ m ──copy──▸ m'
                       └── merge ──┴──▸ all connections

In either build a key leads to what its own tile adds.  A computed tile adds it itself, a copied one
has it from its reference tile; and no tile is both.  **So the two builds succeed together, with the
same map** (`stampedConnections_eq_ok_iff`), whichever of them a device gets
(`connections_eq_ok_iff`).
-/

namespace FpgaRouting

namespace Fabric

variable {f : Fabric} {p : Stamping} {m : Connections}

section

variable (hregular : f.Regular) (hfits : p.Fits f)

include hregular hfits

theorem targetsOf_stampedConnections (h : f.stampedConnections p = .ok m) (k : Key) :
    m.targetsOf k = if k.tile ∈ f.tiles then (f.addedTo k).foldl addOnce [] else [] := by
  obtain ⟨computed, hcomputed, h⟩ := Outcome.bind_eq_ok_iff.mp h
  obtain ⟨copied, hcopied, h⟩ := Outcome.bind_eq_ok_iff.mp h
  obtain rfl := Except.ok.inj h
  have htargets := targetsOf_connectionsOver hcomputed
  have hcopies := Stamping.targetsOf_copyTiles hregular hfits
    (fun t ht => hfits.interior_of_mem_copiedTiles ht) (Outcome.liftM_eq_ok_iff.mp hcopied) k
  rw [Connections.targetsOf_empty] at hcopies
  rw [Connections.targetsOf_merge, htargets, hcopies]
  by_cases htile : k.tile ∈ f.tiles
  · by_cases hmem : k.tile ∈ p.computedTiles f
    · have hnot : k.tile ∉ p.copiedTiles f := fun hc => (hfits.mem_copiedTiles_iff.mp hc).2 hmem
      simp only [htile, hmem, hnot, if_true, if_false, List.foldl_nil]
    · have hcopy : k.tile ∈ p.copiedTiles f := hfits.mem_copiedTiles_iff.mpr ⟨htile, hmem⟩
      have hsame : f.addedTo k = f.addedTo (k.movedTo (p.reference k.tile)) :=
        addedTo_movedTo hregular hfits.repeats (hfits.interior_reference k.tile)
          (hfits.interior_of_mem_copiedTiles hcopy)
          (p.reference_modEq (hfits.interior_of_mem_copiedTiles hcopy)) rfl
      have hsource : (k.movedTo (p.reference k.tile)).tile ∈ p.computedTiles f :=
        hfits.reference_mem_computedTiles k.tile
      have hnodup := computed.nodup_targetsOf (k.movedTo (p.reference k.tile))
      rw [htargets, if_pos hsource, ← hsame] at hnodup
      rw [if_neg hmem, if_pos hcopy, if_pos htile, htargets, if_pos hsource, ← hsame,
        foldl_addOnce_nil hnodup, foldl_addOnce_nil hnodup]
  · have hmem : k.tile ∉ p.computedTiles f := fun hc =>
      htile (hfits.mem_computedTiles_iff.mp hc).1
    have hcopy : k.tile ∉ p.copiedTiles f := fun hc => htile (hfits.mem_copiedTiles_iff.mp hc).1
    simp only [htile, hmem, hcopy, if_false, List.foldl_nil]

theorem exists_stampedConnections_iff :
    (∃ m, f.stampedConnections p = .ok m) ↔ ∀ t ∈ f.tiles, f.Computes t := by
  have hcomputes : (∀ t ∈ f.tiles, f.Computes t) ↔ ∀ t ∈ p.computedTiles f, f.Computes t := by
    constructor
    · exact fun hall t ht => hall t (hfits.mem_computedTiles_iff.mp ht).1
    · intro hall t ht
      by_cases hmem : t ∈ p.computedTiles f
      · exact hall t hmem
      · have hinterior := hfits.interior_of_mem_copiedTiles
          (hfits.mem_copiedTiles_iff.mpr ⟨ht, hmem⟩)
        exact (computes_iff hregular hfits.repeats (hfits.interior_reference t) hinterior
          (p.reference_modEq hinterior)).mpr (hall _ (hfits.reference_mem_computedTiles t))
  rw [hcomputes, ← exists_connectionsOver_eq_ok_iff]
  constructor
  · rintro ⟨m, hm⟩
    obtain ⟨computed, hcomputed, -⟩ := Outcome.bind_eq_ok_iff.mp hm
    exact ⟨computed, hcomputed⟩
  · rintro ⟨computed, hcomputed⟩
    obtain ⟨copied, hcopied⟩ := Stamping.exists_copyTiles hregular hfits
      (fun t ht => hfits.interior_of_mem_copiedTiles ht) computed .empty
    refine ⟨computed.merge copied, ?_⟩
    rw [stampedConnections, hcomputed, Outcome.ok_bind, hcopied]
    rfl

/-- **A stamped build and the build that computes every tile have the same result**, if any. -/
theorem stampedConnections_eq_ok_iff :
    f.stampedConnections p = .ok m ↔ f.computedConnections = .ok m := by
  constructor
  · intro hm
    obtain ⟨m', hm'⟩ := exists_connectionsOver_eq_ok_iff.mpr
      ((exists_stampedConnections_iff hregular hfits).mp ⟨m, hm⟩)
    obtain rfl : m = m' := by
      ext k : 1
      rw [targetsOf_stampedConnections hregular hfits hm, targetsOf_connectionsOver hm']
    exact hm'
  · intro hm
    obtain ⟨m', hm'⟩ := (exists_stampedConnections_iff hregular hfits).mpr
      (exists_connectionsOver_eq_ok_iff.mp ⟨m, hm⟩)
    obtain rfl : m = m' := by
      ext k : 1
      rw [targetsOf_connectionsOver hm, targetsOf_stampedConnections hregular hfits hm']
    exact hm'

end

/-! ## The decision -/

theorem foldl_max_le_iff {ns : List Nat} {a b : Nat} :
    ns.foldl max a ≤ b ↔ a ≤ b ∧ ∀ n ∈ ns, n ≤ b := by
  induction ns generalizing a with
  | nil => simp
  | cons n ns ih => rw [List.foldl_cons, ih, max_le_iff, List.forall_mem_cons, and_assoc]

/-- Wires that are shorter than the device make every connected type repeat. -/
theorem connectedRepeat_of_longest (hregular : f.Regular)
    (hlongest : (f.wireTypes.map (·.length)).foldl max 0 < min f.device.width f.device.height) :
    f.ConnectedRepeat f.commonPeriod := by
  intro s hs r hr hfrom hto w hw length hlength
  have hmem : w ∈ f.connectedTypes := mem_connectedTypes_iff.mpr
    ⟨r, List.mem_flatMap.mpr ⟨s, hs, hr⟩, hfrom, hto, hw⟩
  have hlt := hregular.resolved.lt_of_mem_connectedTypes hmem
  obtain rfl : f.lengthAt w = length := Except.ok.inj ((lengthOf_eq hlt).symm.trans hlength)
  have hle : f.lengthAt w ≤ (f.wireTypes.map (·.length)).foldl max 0 := by
    rw [lengthAt, List.getElem?_eq_getElem hlt]
    exact (foldl_max_le_iff.mp le_rfl).2 _ (List.mem_map_of_mem (List.getElem_mem hlt))
  exact ⟨dvd_commonPeriod hmem, by omega, by omega⟩

/-- **A build is decided**, and a plan that is made fits. -/
theorem exists_decision (hregular : f.Regular) (hperiod : f.commonPeriod < 2 ^ 64 - 1) :
    ∃ d, StampDecision.of f = .ok d ∧ ∀ p, d.plan? = some p → p.Fits f := by
  have hlt : f.commonPeriod < Word.count := by simp only [Word.count]; omega
  have hadd : f.commonPeriod + 1 < Word.count := by simp only [Word.count]; omega
  have hpos := hregular.resolved.commonPeriod_pos
  rw [StampDecision.of, hregular.resolved.period_eq hlt, Outcome.ok_bind]
  by_cases hempty : f.connectedTypes = []
  · rw [if_pos hempty, if_pos rfl]
    exact ⟨.noRules, rfl, by simp [StampDecision.plan?]⟩
  · rw [if_neg hempty, if_neg hpos.ne', Word.add, Word.check_of_lt hadd, Outcome.ok_bind]
    by_cases hunfit : f.device.width < f.commonPeriod + 1 ∨ f.device.height < 2 ∨
        min f.device.width f.device.height ≤ (f.wireTypes.map (·.length)).foldl max 0
    · exact ⟨_, if_pos hunfit, by simp [StampDecision.plan?]⟩
    · refine ⟨_, if_neg hunfit, fun p hp => ?_⟩
      obtain rfl := Option.some.inj hp
      have hrepeat := connectedRepeat_of_longest hregular (by omega)
      exact ⟨rfl, rfl, hpos, by simp only; omega, by omega, hrepeat⟩

/-- **A build is decided only where the end of the strip is a word.** -/
theorem commonPeriod_lt_of_decision (hregular : f.Regular) {d : StampDecision}
    (h : StampDecision.of f = .ok d) : f.commonPeriod < 2 ^ 64 - 1 := by
  obtain ⟨n, hn, h⟩ := Outcome.bind_eq_ok_iff.mp h
  have hperiod := eq_of_period hn
  by_cases hempty : f.connectedTypes = []
  · rw [commonPeriod, hempty]
    exact Nat.lt_of_sub_pos (by norm_num)
  · rw [if_neg hempty] at hperiod
    rw [hperiod, if_neg hregular.resolved.commonPeriod_pos.ne'] at h
    obtain ⟨width, hwidth, -⟩ := Outcome.bind_eq_ok_iff.mp h
    have hlt := (Word.check_eq_ok_iff.mp hwidth).1
    simp only [Word.count] at hlt
    omega

/-- **A plan that a device gets fits it.** -/
theorem fits_of_plan (hregular : f.Regular) {d : StampDecision}
    (hdecision : StampDecision.of f = .ok d) (hplan : d.plan? = some p) : p.Fits f := by
  have hperiod := commonPeriod_lt_of_decision hregular hdecision
  obtain ⟨d', hd', hfits⟩ := exists_decision hregular hperiod
  obtain rfl := Except.ok.inj (hdecision.symm.trans hd')
  exact hfits p hplan

/-- **A build that succeeds has the connections of every tile computed**, however long its
period. -/
theorem computedConnections_of_connections (hregular : f.Regular) (h : f.connections = .ok m) :
    f.computedConnections = .ok m := by
  obtain ⟨d, hd, h⟩ := Outcome.bind_eq_ok_iff.mp h
  have hd := Outcome.liftM_eq_ok_iff.mp hd
  split at h
  · next p hplan =>
    exact (stampedConnections_eq_ok_iff hregular (fits_of_plan hregular hd hplan)).mp h
  · exact h

/-- **Stamping changes nothing.**  On an accepted device within the limit, let the least common
multiple of the connected lengths be below `2 ^ 64 - 1`.  The build then succeeds exactly if
computing every tile does, and with the same map; the entries of a tile in it are those of the tile
computed alone. -/
theorem connections_eq_ok_iff {a : Architecture} (haccept : ofArchitecture a = .ok f)
    (hsize : Moderate a.device a.wireTypes) (hperiod : f.commonPeriod < 2 ^ 64 - 1) :
    (∀ m, f.connections = .ok m ↔ f.computedConnections = .ok m) ∧
    ((∃ e, f.connections = .error e) ↔ ∃ e, f.computedConnections = .error e) ∧
    ∀ m, f.connections = .ok m → ∀ t ∈ f.tiles,
      ∃ mt, f.connectionsAt t = .ok mt ∧ m.atTile t = mt.toList := by
  have hregular := regular_of_architecture haccept hsize
  obtain ⟨d, hd, hfits⟩ := exists_decision hregular hperiod
  have hsame : ∀ m, f.connections = .ok m ↔ f.computedConnections = .ok m := by
    intro m
    rw [connections, hd]
    cases hplan : d.plan? with
    | none => simp [hplan]
    | some p => simpa [hplan] using stampedConnections_eq_ok_iff hregular (hfits p hplan)
  refine ⟨hsame, ?_, fun m hm t ht => ?_⟩
  · rw [Outcome.exists_eq_error_iff, Outcome.exists_eq_error_iff]
    exact forall_congr' fun m => not_congr (hsame m)
  · exact atTile_connectionsOver ((hsame m).mp hm) ht

set_option maxRecDepth 4000 in
/-- The small device is stamped with the period `2`, and two of its tiles are copies. -/
theorem connections_eq_ok_iff_staggered : ∃ f, ofArchitecture staggered = .ok f ∧
    StampDecision.of f = .ok (.stamp ⟨2, 3, 3⟩) ∧
    (Stamping.copiedTiles ⟨2, 3, 3⟩ f).length = 2 ∧
    ∃ m, f.connections = .ok m ∧ f.computedConnections = .ok m := by
  refine ⟨_, by cbv, by cbv, by cbv, _, by cbv, ?_⟩
  exact ((@connections_eq_ok_iff _ staggered (by cbv) (by decide) (by decide)).1 _).mp (by cbv)

end Fabric

end FpgaRouting
