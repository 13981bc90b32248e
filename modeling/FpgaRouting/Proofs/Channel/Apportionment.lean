import FpgaRouting.Channel.Apportionment
import FpgaRouting.Proofs.Outcome

/-!
# Proofs/Channel/Apportionment — no track is lost

A unit goes to the leader, and shares that are not empty have one; so **the units that have been
granted add up to the number of grants**, and the tracks of the types to the width of the channel.

Before each grant all demands together are the cost of the units that are left.  The leader then
demands something, and what a unit takes from it stays a signed word: **every unit can be granted**
(`exists_granted`).
-/

namespace FpgaRouting

theorem Word.sum_of_lt {ns : List Nat} (h : ns.sum < Word.count) : Word.sum ns = .ok ns.sum := by
  have hfrom : ∀ a, a + ns.sum < Word.count → ns.foldlM Word.add a = .ok (a + ns.sum) := by
    clear h
    induction ns with
    | nil => exact fun _ _ => rfl
    | cons n ns ih =>
      intro a ha
      rw [List.sum_cons, ← Nat.add_assoc] at ha ⊢
      rw [List.foldlM_cons, Word.add, Word.check_of_lt (by omega), Outcome.ok_bind, ih _ ha]
  rw [Word.sum, hfrom 0 (by omega), Nat.zero_add]

namespace Share

theorem leader_lt {shares : List Share} (h : shares ≠ []) : leader shares < shares.length := by
  obtain ⟨s, hs, hmax⟩ := shares.toFinset.exists_max_image Share.demand
    (List.toFinset_nonempty_iff shares |>.mpr h)
  rw [leader, List.findIdx_lt_length]
  refine ⟨s, List.mem_toFinset.mp hs, ?_⟩
  simpa using fun s' hs' => hmax s' (List.mem_toFinset.mpr hs')

/-- The units that have been granted. -/
def granted (shares : List Share) : Nat := (shares.map units).sum

theorem granted_set {shares : List Share} {i : Nat} (hi : i < shares.length) (demand : Int) :
    granted (shares.set i ⟨demand, shares[i].units + 1⟩) = granted shares + 1 := by
  induction shares generalizing i with
  | nil => simp at hi
  | cons s shares ih =>
    cases i with
    | zero => simp [granted]; omega
    | succ i =>
      have := ih (i := i) (by simpa using hi)
      simp only [granted, List.set_cons_succ, List.getElem_cons_succ, List.map_cons,
        List.sum_cons] at this ⊢
      omega

/-- **A grant takes the cost of a unit from the leader**, and changes nobody else. -/
theorem eq_set_of_grant {cost : Int} {shares shares' : List Share}
    (hlt : leader shares < shares.length) (h : grant cost shares = .ok shares') :
    shares' = shares.set (leader shares)
      ⟨shares[leader shares].demand - cost, shares[leader shares].units + 1⟩ := by
  rw [grant, List.getElem?_eq_getElem hlt] at h
  obtain ⟨demand, hdemand, hset⟩ := Outcome.bind_eq_ok_iff.mp h
  have hexact : shares[leader shares].demand - cost = demand := by
    rw [Word.subSigned, Word.checkSigned] at hdemand
    split_ifs at hdemand
    exact Except.ok.inj hdemand
  rw [hexact]
  exact (Except.ok.inj hset).symm

/-- **A grant hands out one unit.** -/
theorem granted_grant {cost : Int} {shares shares' : List Share} (h : shares ≠ [])
    (hgrant : grant cost shares = .ok shares') :
    shares'.length = shares.length ∧ granted shares' = granted shares + 1 := by
  have hlt := leader_lt h
  obtain rfl := eq_set_of_grant hlt hgrant
  exact ⟨List.length_set, granted_set hlt _⟩

/-- **Grants to shares that are not empty hand out one unit each.** -/
theorem granted_grantAll {cost : Int} {units : Nat} {shares shares' : List Share}
    (h : shares ≠ []) (hgrant : grantAll cost units shares = .ok shares') :
    shares'.length = shares.length ∧ granted shares' = granted shares + units := by
  induction units generalizing shares with
  | zero =>
    obtain rfl := Except.ok.inj hgrant
    exact ⟨rfl, rfl⟩
  | succ units ih =>
    obtain ⟨next, hnext, hrest⟩ := Outcome.bind_eq_ok_iff.mp hgrant
    obtain ⟨hlength, hunits⟩ := granted_grant h hnext
    have hne : next ≠ [] := List.ne_nil_of_length_pos (by
      rw [hlength]; exact List.length_pos_of_ne_nil h)
    obtain ⟨hlength', hunits'⟩ := ih hne hrest
    exact ⟨hlength'.trans hlength, by omega⟩

/-! ## Every unit can be granted -/

/-- **No share demands more than the leader.** -/
theorem demand_le_leader {shares : List Share} (hlt : leader shares < shares.length) :
    ∀ s ∈ shares, s.demand ≤ shares[leader shares].demand := by
  have hleads : shares.all (·.demand ≤ shares[leader shares].demand) = true :=
    List.findIdx_getElem (w := hlt)
  simpa using hleads

/-- Shares whose demands add up to the cost of a number of units, each a signed word. -/
structure Solvent (cost : Int) (units : Nat) (shares : List Share) : Prop where
  sum_eq : (shares.map demand).sum = units * cost
  demand_lt : ∀ s ∈ shares, s.demand < Word.half

section

variable {cost : Int} {units : Nat} {shares : List Share} (hpos : 0 < cost)
  (hcost : cost < Word.half)

include hpos

theorem Solvent.leader_lt (h : Solvent cost (units + 1) shares) :
    leader shares < shares.length := by
  refine Share.leader_lt fun hempty => ?_
  have hsum := h.sum_eq
  rw [hempty, List.map_nil, List.sum_nil] at hsum
  have hcostly : 0 < ((units + 1 : Nat) : Int) * cost := by positivity
  omega

/-- **While units are left the leader demands something**, for all demands together do. -/
theorem Solvent.demand_leader_pos (h : Solvent cost (units + 1) shares)
    (hlt : leader shares < shares.length) : 0 < shares[leader shares].demand := by
  by_contra hneg
  have hnone : (shares.map demand).sum ≤ (shares.map demand).length • (0 : Int) :=
    List.sum_le_card_nsmul _ _ (List.forall_mem_map.mpr fun s hs =>
      (demand_le_leader hlt s hs).trans (not_lt.mp hneg))
  rw [h.sum_eq, nsmul_zero] at hnone
  have hcostly : 0 < ((units + 1 : Nat) : Int) * cost := by positivity
  omega

include hcost

/-- **A unit can be granted**, and leaves the cost of the others. -/
theorem Solvent.exists_grant (h : Solvent cost (units + 1) shares) :
    ∃ shares', grant cost shares = .ok shares' ∧ Solvent cost units shares' := by
  have hlt := h.leader_lt hpos
  have hdemand := h.demand_leader_pos hpos hlt
  have hword := h.demand_lt _ (List.getElem_mem hlt)
  have hsigned : Word.Signed (shares[leader shares].demand - cost) := by
    simp only [Word.Signed]
    omega
  refine ⟨shares.set (leader shares) ⟨shares[leader shares].demand - cost,
    shares[leader shares].units + 1⟩, ?_, ?_, fun s hs => ?_⟩
  · rw [grant, List.getElem?_eq_getElem hlt]
    simp only [Word.subSigned, Word.checkSigned_of_signed hsigned]
    rfl
  · rw [List.map_set, List.sum_set', dif_pos (by simpa using hlt), h.sum_eq, List.getElem_map]
    push_cast
    ring
  · rcases List.mem_or_eq_of_mem_set hs with hs | rfl
    · exact h.demand_lt s hs
    · exact hsigned.2

/-- **All units can be granted, one after another.** -/
theorem Solvent.exists_grantAll (h : Solvent cost units shares) :
    ∃ shares', grantAll cost units shares = .ok shares' := by
  induction units generalizing shares with
  | zero => exact ⟨shares, rfl⟩
  | succ units ih =>
    obtain ⟨next, hgrant, hnext⟩ := h.exists_grant hpos hcost
    obtain ⟨shares', hrest⟩ := ih hnext
    exact ⟨shares', Outcome.bind_eq_ok_iff.mpr ⟨next, hgrant, hrest⟩⟩

end

end Share

/-! ## The tracks of wire types -/

section

variable {channelWidth : Nat} {wireTypes : List WireType} {d : Directionality} {counts : List Nat}
  (h : tracksPerType channelWidth wireTypes d = .ok counts)

include h

/-- **What apportioning tracks has checked and granted**: the channel is made of whole wires, there
are types if there is a wire, and a type has the tracks of the wires it was granted. -/
theorem exists_shares_of_tracksPerType :
    d.tracksPerWire ∣ channelWidth ∧
      (wireTypes = [] → channelWidth / d.tracksPerWire = 0) ∧
      ∃ (cost : Int) (demands : List Nat) (shares : List Share),
        demands.length = wireTypes.length ∧
        Share.grantAll cost (channelWidth / d.tracksPerWire)
          (demands.map fun demand => ⟨Word.toSigned demand, 0⟩) = .ok shares ∧
        counts = shares.map (·.units * d.tracksPerWire) := by
  rw [tracksPerType] at h
  obtain ⟨heven, h⟩ := Outcome.check_eq_ok_iff.mp h
  obtain ⟨total, htotal, h⟩ := Outcome.bind_eq_ok_iff.mp h
  obtain ⟨hsome, h⟩ := Outcome.check_eq_ok_iff.mp h
  obtain ⟨demands, hdemands, h⟩ := Outcome.bind_eq_ok_iff.mp h
  obtain ⟨shares, hshares, h⟩ := Outcome.bind_eq_ok_iff.mp h
  refine ⟨Nat.dvd_of_mod_eq_zero (not_not.mp heven), ?_, _, demands, shares, ?_,
    Outcome.liftM_eq_ok_iff.mp hshares, (Except.ok.inj h).symm⟩
  · rintro rfl
    obtain rfl := Except.ok.inj (Outcome.liftM_eq_ok_iff.mp htotal)
    exact Nat.eq_zero_of_not_pos fun hpos => hsome ⟨hpos, rfl⟩
  · exact (Outcome.mapM_eq_ok_iff.mp (Outcome.ofWord_eq_ok_iff.mp hdemands)).length_eq.symm

/-- **The types share out the whole channel.** -/
theorem sum_tracksPerType : counts.length = wireTypes.length ∧ counts.sum = channelWidth := by
  obtain ⟨heven, hnone, cost, demands, shares, hlength, hgrant, rfl⟩ :=
    exists_shares_of_tracksPerType h
  have hwidth := Nat.div_mul_cancel heven
  have hsum : (shares.map (·.units * d.tracksPerWire)).sum
      = Share.granted shares * d.tracksPerWire := List.sum_map_mul_right _ _ _
  rw [List.length_map, hsum, ← hlength]
  rcases eq_or_ne demands [] with rfl | hne
  · -- Without types there is nobody to lead, but nothing to hand out either.
    rw [hnone (List.eq_nil_of_length_eq_zero hlength.symm)] at hgrant hwidth
    obtain rfl := Except.ok.inj hgrant
    exact ⟨rfl, by simpa [Share.granted] using hwidth⟩
  · obtain ⟨hlength', hgranted⟩ := Share.granted_grantAll (by simpa using hne) hgrant
    have hzero : Share.granted (demands.map fun demand => ⟨Word.toSigned demand, 0⟩) = 0 := by
      simp [Share.granted, Function.comp_def]
    rw [hgranted, hzero, Nat.zero_add]
    exact ⟨by simpa using hlength', hwidth⟩

/-- **Types are granted whole wires.** -/
theorem dvd_of_mem_tracksPerType : ∀ count ∈ counts, d.tracksPerWire ∣ count := by
  obtain ⟨-, -, cost, demands, shares, -, -, rfl⟩ := exists_shares_of_tracksPerType h
  intro count hcount
  obtain ⟨share, -, rfl⟩ := List.mem_map.mp hcount
  exact Nat.dvd_mul_left _ _

end

namespace Share

/-- The shares of wire types before the first grant. -/
def initial (units : Nat) (ws : List WireType) : List Share :=
  ws.map fun w => ⟨(units * w.frequency : Nat), 0⟩

section

variable {units : Nat} {ws : List WireType} (hdemand : ∀ w ∈ ws, units * w.frequency < Word.half)

include hdemand

theorem mapM_demand :
    (ws.mapM fun w => Word.mul units w.frequency) = .ok (ws.map fun w => units * w.frequency) :=
  Outcome.mapM_eq_ok fun w hw => Word.check_of_lt ((hdemand w hw).trans (by decide))

theorem map_demand :
    ((ws.map fun w => units * w.frequency).map fun demand => (⟨Word.toSigned demand, 0⟩ : Share))
      = initial units ws := by
  rw [List.map_map]
  exact List.map_congr_left fun w hw => by
    rw [Function.comp_apply, Word.toSigned_of_lt (hdemand w hw)]

/-- **The demands of wire types are the cost of all units**, shared out by frequency. -/
theorem solvent_initial :
    Solvent ((ws.map (·.frequency)).sum : Nat) units (initial units ws) := by
  refine ⟨?_, List.forall_mem_map.mpr fun w hw => Int.ofNat_lt.mpr (hdemand w hw)⟩
  rw [initial, Nat.cast_list_sum, List.map_map, List.map_map, ← List.sum_map_mul_left]
  exact congrArg List.sum (List.map_congr_left fun w _ => Nat.cast_mul ..)

/-- **Frequencies that add up to something have all units granted**, if the demands are signed
words. -/
theorem exists_granted (hserved : units = 0 ∨ 0 < (ws.map (·.frequency)).sum)
    (htotal : (ws.map (·.frequency)).sum < Word.half) :
    ∃ shares, grantAll ((ws.map (·.frequency)).sum : Nat) units (initial units ws)
      = .ok shares := by
  rcases hserved with rfl | hpos
  · exact ⟨_, rfl⟩
  · exact (solvent_initial hdemand).exists_grantAll (Int.natCast_pos.mpr hpos)
      (Int.ofNat_lt.mpr htotal)

end

end Share

/-- **A type has the tracks of the units it is granted**, where no word is too small for the
demands. -/
theorem tracksPerType_eq_ok {channelWidth : Nat} {ws : List WireType} {d : Directionality}
    {shares : List Share} (heven : d.tracksPerWire ∣ channelWidth)
    (hserved : ¬ (0 < channelWidth / d.tracksPerWire ∧ (ws.map (·.frequency)).sum = 0))
    (htotal : (ws.map (·.frequency)).sum < Word.half)
    (hdemand : ∀ w ∈ ws, channelWidth / d.tracksPerWire * w.frequency < Word.half)
    (hgranted : Share.grantAll ((ws.map (·.frequency)).sum : Nat) (channelWidth / d.tracksPerWire)
      (Share.initial (channelWidth / d.tracksPerWire) ws) = .ok shares) :
    tracksPerType channelWidth ws d = .ok (shares.map (·.units * d.tracksPerWire)) := by
  rw [tracksPerType, if_neg (not_not.mpr (Nat.mod_eq_zero_of_dvd heven)),
    Word.sum_of_lt (htotal.trans (by decide)), Outcome.liftM_ok, Outcome.ok_bind, if_neg hserved,
    Share.mapM_demand hdemand, Outcome.ofWord_ok, Outcome.ok_bind, Share.map_demand hdemand,
    Word.toSigned_of_lt htotal]
  dsimp only
  rw [hgranted]
  rfl

end FpgaRouting
