import FpgaRouting.Proofs.Channel.Apportionment

/-!
# Proofs/Channel/LargestRemainder — who gets the units that are left over

      frequency    5   3   3   0        6 units, frequencies 11 in all
      demand      30  18  18   0
      whole        2   1   1   0        4 units, 2 are left over
      remainder    8   7   7   0
      granted      3   2   1   0        to the largest remainders, one each

Grants go to one leader after another.  Two facts about them survive every grant (`Fair`): **a unit
never takes a demand down to minus its cost**, for the leader demanded something, and **nobody
demands more than a granted share did**, and less if it is listed before it.  When nothing is left
to grant the demands add up to zero, so none of them reaches the cost (`demand_lt_cost`).  Each is
then its remainder, or lies one unit below it: these shares are the ones with the largest
remainders (`tracksPerType_eq_largestRemainder`).
-/

namespace FpgaRouting

/-! ## The first of a family -/

/-- How many members of a family stand before a member: the greater ones, and of the equal ones
those that are listed earlier. -/
def place {n : Nat} (r : Fin n → Nat) (i : Fin n) : Nat :=
  (Finset.univ.filter fun j => r i < r j ∨ r i = r j ∧ j < i).card

/-- **A set that stands before everything else holds the first places.** -/
theorem place_lt_card_iff {n : Nat} {r : Fin n → Nat} {E : Finset (Fin n)}
    (h : ∀ i ∈ E, ∀ j ∉ E, r j < r i ∨ r j = r i ∧ i < j) (i : Fin n) :
    place r i < E.card ↔ i ∈ E := by
  constructor
  · intro hplace
    by_contra hi
    refine hplace.not_ge (Finset.card_le_card fun j hj => ?_)
    exact Finset.mem_filter.mpr ⟨Finset.mem_univ j, h j hj i hi⟩
  · intro hi
    refine (Finset.card_le_card fun j hj => ?_).trans_lt (Finset.card_erase_lt_of_mem hi)
    have hbefore := (Finset.mem_filter.mp hj).2
    refine Finset.mem_erase.mpr ⟨?_, ?_⟩
    · rintro rfl
      exact hbefore.elim (lt_irrefl _) fun hlt => lt_irrefl _ hlt.2
    · by_contra hj
      rcases hbefore with hlt | ⟨heq, hlt⟩ <;> rcases h i hi j hj with hlt' | ⟨heq', hlt'⟩
      · exact lt_asymm hlt hlt'
      · exact hlt.ne' heq'
      · exact hlt'.ne' heq
      · exact lt_asymm hlt hlt'

namespace Share

variable {cost : Int} {shares shares' : List Share}

/-! ## What a grant does -/

/-- **A leader that is not the first demands more than those before it.** -/
theorem demand_lt_leader (hlt : leader shares < shares.length) {i : Nat} (hi : i < shares.length)
    (hbefore : i < leader shares) : shares[i].demand < shares[leader shares].demand := by
  have hbeaten : ¬ shares.all (fun s' => s'.demand ≤ shares[i].demand) = true :=
    Bool.not_eq_true _ ▸ List.not_of_lt_findIdx hbefore
  simp only [List.all_eq_true, decide_eq_true_eq, not_forall, not_le] at hbeaten
  obtain ⟨s, hs, hless⟩ := hbeaten
  exact hless.trans_le (demand_le_leader hlt s hs)

/-- What each share has been due from the start: what it demands and what it was granted. -/
def dues (cost : Int) (shares : List Share) : List Int :=
  shares.map fun s => s.demand + cost * s.units

/-- **A grant changes nothing about it**: what it takes from a demand it gives in units. -/
theorem dues_grant (hlt : leader shares < shares.length)
    (h : grant cost shares = .ok shares') : dues cost shares' = dues cost shares := by
  rw [eq_set_of_grant hlt h, dues, List.map_set]
  refine List.ext_getElem (by simp [dues]) fun i hi hi' => ?_
  rw [List.getElem_set]
  split_ifs with heq
  · obtain rfl := heq
    simp only [dues, List.getElem_map]
    push_cast
    ring
  · rfl

/-! ## Fair shares -/

/-- **Shares after grants to leaders.**  Whoever has a unit demanded something before the last one,
and then no less than any other share does now, and more than those that are listed before it. -/
structure Fair (cost : Int) (shares : List Share) : Prop where
  owed : ∀ s ∈ shares, 0 < s.units → -cost < s.demand
  led : ∀ i j (hi : i < shares.length) (hj : j < shares.length), 0 < shares[j].units →
    shares[i].demand ≤ shares[j].demand + cost ∧
      (i < j → shares[i].demand < shares[j].demand + cost)

/-- Before the first grant nobody has a unit. -/
theorem fair_of_units_eq_zero (h : ∀ s ∈ shares, s.units = 0) : Fair cost shares where
  owed s hs hunits := absurd (h s hs) hunits.ne'
  led _ _ _ hj hunits := absurd (h _ (List.getElem_mem hj)) hunits.ne'

section

variable (hpos : 0 < cost)

include hpos

/-- **A grant to a leader that demands something keeps the shares fair.** -/
theorem Fair.of_grant (h : Fair cost shares) (hlt : leader shares < shares.length)
    (hdemand : 0 < shares[leader shares].demand) (hgrant : grant cost shares = .ok shares') :
    Fair cost shares' := by
  obtain rfl := eq_set_of_grant hlt hgrant
  refine ⟨fun s hs hunits => ?_, fun i j hi hj hunits => ?_⟩
  · rcases List.mem_or_eq_of_mem_set hs with hs | rfl
    · exact h.owed s hs hunits
    · change -cost < shares[leader shares].demand - cost
      omega
  · rw [List.length_set] at hi hj
    -- Demands only fall, so it is enough to look at the one that falls now.
    have hfall : (shares.set (leader shares)
        ⟨shares[leader shares].demand - cost, shares[leader shares].units + 1⟩)[i].demand
          ≤ shares[i].demand := by
      rw [List.getElem_set]
      split_ifs with heq
      · obtain rfl := heq
        change shares[leader shares].demand - cost ≤ _
        omega
      · exact le_rfl
    by_cases hj' : leader shares = j
    · subst hj'
      rw [List.getElem_set_self, Int.sub_add_cancel]
      exact ⟨hfall.trans (demand_le_leader hlt _ (List.getElem_mem hi)),
        fun hbefore => hfall.trans_lt (demand_lt_leader hlt hi hbefore)⟩
    · simp only [List.getElem_set_ne hj'] at hunits ⊢
      obtain ⟨hle, hless⟩ := h.led i j hi hj hunits
      exact ⟨hfall.trans hle, fun hbefore => hfall.trans_lt (hless hbefore)⟩

/-- **Solvent shares stay fair until nothing is left to grant.** -/
theorem Solvent.fair_of_grantAll (hcost : cost < Word.half) {units : Nat}
    (h : Solvent cost units shares) (hfair : Fair cost shares)
    (hgrant : grantAll cost units shares = .ok shares') :
    Solvent cost 0 shares' ∧ Fair cost shares' ∧ dues cost shares' = dues cost shares := by
  induction units generalizing shares with
  | zero =>
    obtain rfl := Except.ok.inj hgrant
    exact ⟨h, hfair, rfl⟩
  | succ units ih =>
    obtain ⟨next, hnext, hrest⟩ := Outcome.bind_eq_ok_iff.mp hgrant
    have hlt := h.leader_lt hpos
    obtain ⟨next', hnext', hsolvent⟩ := h.exists_grant hpos hcost
    obtain rfl : next' = next := Except.ok.inj (hnext'.symm.trans hnext)
    have hfair' := hfair.of_grant hpos hlt (h.demand_leader_pos hpos hlt) hnext
    obtain ⟨hsolvent', hfair'', hdues⟩ := ih hsolvent hfair' hrest
    exact ⟨hsolvent', hfair'', hdues.trans (dues_grant hlt hnext)⟩

end

/-! ## Nothing is left to grant -/

section

variable (h : Solvent cost 0 shares) (hfair : Fair cost shares)
  (hdues : ∀ n ∈ dues cost shares, 0 ≤ n) {s : Share} (hs : s ∈ shares)

include hdues hs

/-- A share without units demands what it was due from the start. -/
theorem demand_nonneg_of_units_eq_zero (hnone : s.units = 0) : 0 ≤ s.demand := by
  have hdue := hdues _ (List.mem_map_of_mem hs)
  rw [hnone, Nat.cast_zero, mul_zero, add_zero] at hdue
  exact hdue

include hfair

theorem neg_cost_lt_demand (hpos : 0 < cost) : -cost < s.demand := by
  rcases Nat.eq_zero_or_pos s.units with hnone | hunits
  · have hnonneg := demand_nonneg_of_units_eq_zero hdues hs hnone
    omega
  · exact hfair.owed s hs hunits

include h

/-- **No share can still demand a unit**: nobody would be left below zero to make up for it. -/
theorem demand_lt_cost (hpos : 0 < cost) : s.demand < cost := by
  by_contra hcostly
  obtain ⟨i, hi, rfl⟩ := List.getElem_of_mem hs
  have hnonneg : ∀ n ∈ shares.map demand, 0 ≤ n := by
    rw [List.forall_mem_map]
    intro s' hs'
    obtain ⟨j, hj, rfl⟩ := List.getElem_of_mem hs'
    rcases Nat.eq_zero_or_pos shares[j].units with hnone | hunits
    · exact demand_nonneg_of_units_eq_zero hdues hs' hnone
    · have hle := (hfair.led i j hi hj hunits).1
      omega
  have hsum := List.single_le_sum hnonneg _ (List.mem_map_of_mem hs)
  rw [h.sum_eq, Nat.cast_zero, zero_mul] at hsum
  omega

end

/-- **A demand within one unit of zero is what whole units leave over**, or one unit less. -/
theorem units_eq_div_add {s : Share} {total n : Nat} (hdue : s.demand + total * s.units = n)
    (hlow : -(total : Int) < s.demand) (hhigh : s.demand < total) :
    s.units = n / total + (if s.demand < 0 then 1 else 0) ∧
      s.demand = (n % total : Nat) - (if s.demand < 0 then (total : Int) else 0) := by
  have hpos : 0 < total := by omega
  split_ifs with hneg
  · obtain ⟨units, hunits⟩ : ∃ units, s.units = units + 1 := by
      refine Nat.exists_eq_add_one.mpr (Nat.pos_of_ne_zero fun hzero => ?_)
      rw [hzero, Nat.cast_zero, mul_zero] at hdue
      omega
    have hdiv := (Nat.div_mod_unique (a := n) (d := units) (c := (s.demand + total).toNat)
      hpos).mpr ⟨?_, by omega⟩
    · omega
    · zify
      rw [← hdue, hunits, Int.toNat_of_nonneg (by omega)]
      push_cast
      ring
  · have hdiv := (Nat.div_mod_unique (a := n) (d := s.units) (c := s.demand.toNat)
      hpos).mpr ⟨?_, by omega⟩
    · omega
    · zify
      rw [← hdue, Int.toNat_of_nonneg (by omega)]

end Share

/-! ## Wire types -/

namespace LargestRemainder

/-- The wires of a channel, each of which is a unit to be granted. -/
abbrev wires (channelWidth : Nat) (d : Directionality) : Nat := channelWidth / d.tracksPerWire

/-- The frequencies of all wire types together. -/
abbrev total (ws : List WireType) : Nat := (ws.map (·.frequency)).sum

variable (units : Nat) (ws : List WireType)

/-- The share of a wire type in all units by its frequency, rounded down. -/
def whole (i : Fin ws.length) : Nat := units * ws[i].frequency / total ws

/-- What rounding takes from the share, in parts of a unit. -/
def remainder (i : Fin ws.length) : Nat := units * ws[i].frequency % total ws

/-- The units that are left over when every type has its whole units. -/
def spare : Nat := units - ∑ i, whole units ws i

/-- **One unit more for the largest remainders**, as many as there are units left over. -/
def extra (i : Fin ws.length) : Nat :=
  if place (remainder units ws) i < spare units ws then 1 else 0

variable {units ws}

/-- **The shares of wire types when nothing is left to grant.**  They make up all units, none lies a
whole unit off what it demanded, and no type has been passed over for one that demanded less, or as
much and is listed after it. -/
structure Settled (units : Nat) (ws : List WireType) (g : Fin ws.length → Share) : Prop where
  sum_units : ∑ i, (g i).units = units
  due : ∀ i, (g i).demand + (total ws : Int) * (g i).units = (units * ws[i].frequency : Nat)
  low : ∀ i, -(total ws : Int) < (g i).demand
  high : ∀ i, (g i).demand < total ws
  led : ∀ i j, 0 < (g j).units →
    (g i).demand ≤ (g j).demand + total ws ∧ (i < j → (g i).demand < (g j).demand + total ws)

/-- **Grants to leaders settle the shares** of the types. -/
theorem exists_settled {shares : List Share} (hpos : 0 < total ws) (htotal : total ws < Word.half)
    (hdemand : ∀ w ∈ ws, units * w.frequency < Word.half)
    (hgranted : Share.grantAll (total ws) units (Share.initial units ws) = .ok shares) :
    ∃ g : Fin ws.length → Share, shares = List.ofFn g ∧ Settled units ws g := by
  have hcost : 0 < (total ws : Int) := Int.natCast_pos.mpr hpos
  have hne : Share.initial units ws ≠ [] := by
    intro hempty
    obtain rfl := List.map_eq_nil_iff.mp hempty
    exact lt_irrefl 0 hpos
  obtain ⟨hlength, hunits⟩ := Share.granted_grantAll hne hgranted
  obtain ⟨hsolvent, hfair, hdues⟩ := (Share.solvent_initial hdemand).fair_of_grantAll hcost
    (Int.ofNat_lt.mpr htotal) (Share.fair_of_units_eq_zero (by simp [Share.initial])) hgranted
  obtain ⟨g, rfl⟩ : ∃ g : Fin ws.length → Share, shares = List.ofFn g := by
    have hlength' : shares.length = ws.length := hlength.trans (List.length_map _)
    exact ⟨fun i => shares[i], List.ext_getElem (by simp [hlength']) (by simp)⟩
  have hdue : ∀ i, (g i).demand + (total ws : Int) * (g i).units
      = (units * ws[i].frequency : Nat) := by
    intro i
    have hget := congrArg (·[i.1]?) hdues
    simpa [Share.dues, Share.initial] using hget
  have hnonneg : ∀ n ∈ Share.dues (total ws) (List.ofFn g), 0 ≤ n := by
    rw [Share.dues, List.forall_mem_map, List.forall_mem_ofFn_iff]
    intro i
    rw [hdue]
    exact Int.natCast_nonneg _
  have hmem : ∀ i, g i ∈ List.ofFn g := fun i => List.mem_ofFn.mpr ⟨i, rfl⟩
  refine ⟨g, rfl, ?_, hdue, fun i => Share.neg_cost_lt_demand hfair hnonneg (hmem i) hcost,
    fun i => Share.demand_lt_cost hsolvent hfair hnonneg (hmem i) hcost, fun i j hj => ?_⟩
  · have hzero : Share.granted (Share.initial units ws) = 0 := by
      simp [Share.granted, Share.initial, Function.comp_def]
    rw [hzero, Nat.zero_add, Share.granted, List.map_ofFn, List.sum_ofFn] at hunits
    exact hunits
  · simpa using hfair.led i j (by simp) (by simp) (by simpa using hj)

namespace Settled

variable {g : Fin ws.length → Share}

/-- **A type has its whole units, and one more if it went below zero.** -/
theorem units_eq (h : Settled units ws g) (i : Fin ws.length) :
    (g i).units = whole units ws i + if (g i).demand < 0 then 1 else 0 :=
  (Share.units_eq_div_add (h.due i) (h.low i) (h.high i)).1

theorem demand_eq (h : Settled units ws g) (i : Fin ws.length) :
    (g i).demand
      = (remainder units ws i : Int) - if (g i).demand < 0 then (total ws : Int) else 0 :=
  (Share.units_eq_div_add (h.due i) (h.low i) (h.high i)).2

/-- As many types went below zero as there were units left over. -/
theorem card_below (h : Settled units ws g) :
    (Finset.univ.filter fun i => (g i).demand < 0).card = spare units ws := by
  have hsum : ∑ i, whole units ws i + (Finset.univ.filter fun i => (g i).demand < 0).card
      = ∑ i, (g i).units := by
    rw [Finset.card_filter, ← Finset.sum_add_distrib]
    exact Finset.sum_congr rfl fun i _ => (h.units_eq i).symm
  rw [h.sum_units] at hsum
  rw [spare]
  omega

/-- **They had the largest remainders**, and of equal ones they are listed first. -/
theorem first_below (h : Settled units ws g) {i j : Fin ws.length} (hi : (g i).demand < 0)
    (hj : ¬ (g j).demand < 0) :
    remainder units ws j < remainder units ws i ∨
      remainder units ws j = remainder units ws i ∧ i < j := by
  have hdemand := h.demand_eq i
  have hdemand' := h.demand_eq j
  rw [if_pos hi] at hdemand
  rw [if_neg hj] at hdemand'
  have hunits : 0 < (g i).units := by
    rw [h.units_eq, if_pos hi]
    exact Nat.succ_pos _
  obtain ⟨hle, hless⟩ := h.led j i hunits
  rcases lt_trichotomy i j with hlt | rfl | hgt
  · omega
  · exact absurd hi hj
  · have hless' := hless hgt
    omega

theorem extra_eq (h : Settled units ws g) (i : Fin ws.length) :
    extra units ws i = if (g i).demand < 0 then 1 else 0 := by
  have hplace : place (remainder units ws) i < spare units ws ↔ (g i).demand < 0 := by
    rw [← h.card_below, place_lt_card_iff, Finset.mem_filter_univ]
    intro i hi j hj
    rw [Finset.mem_filter_univ] at hi hj
    exact h.first_below hi hj
  simp only [extra, hplace]

/-- **Each unit that is left over goes to one type.** -/
theorem card_extra (h : Settled units ws g) :
    (Finset.univ.filter fun i => extra units ws i = 1).card = spare units ws := by
  rw [← h.card_below]
  refine congrArg Finset.card (Finset.filter_congr fun i _ => ?_)
  rw [h.extra_eq]
  split_ifs with hneg <;> simp [hneg]

/-- A type that demands nothing has no unit to pay for. -/
theorem units_eq_zero (h : Settled units ws g) {i : Fin ws.length} (hzero : ws[i].frequency = 0) :
    (g i).units = 0 := by
  have hdue := h.due i
  have hlow := h.low i
  rw [hzero, Nat.mul_zero, Nat.cast_zero] at hdue
  by_contra hunits
  have hcostly : (total ws : Int) * 1 ≤ (total ws : Int) * (g i).units :=
    mul_le_mul_of_nonneg_left (by omega) (Int.natCast_nonneg _)
  omega

end Settled

section

variable {channelWidth : Nat} {d : Directionality} (htotal : total ws < Word.half)
  (hdemand : ∀ w ∈ ws, wires channelWidth d * w.frequency < Word.half)

include htotal hdemand

/-- **Whole wires that some type asks for are all granted.** -/
theorem exists_counts (heven : d.tracksPerWire ∣ channelWidth)
    (hserved : 0 < wires channelWidth d → 0 < total ws) :
    ∃ shares, Share.grantAll (total ws) (wires channelWidth d)
        (Share.initial (wires channelWidth d) ws) = .ok shares ∧
      tracksPerType channelWidth ws d = .ok (shares.map (·.units * d.tracksPerWire)) := by
  obtain ⟨shares, hgranted⟩ := Share.exists_granted hdemand
    ((Nat.eq_zero_or_pos _).imp_right hserved) htotal
  exact ⟨shares, hgranted, tracksPerType_eq_ok heven
    (fun hnone => (hserved hnone.1).ne' hnone.2) htotal hdemand hgranted⟩

theorem exists_refused_iff :
    (∃ r, tracksPerType channelWidth ws d = .error (.refused r)) ↔
      ¬ d.tracksPerWire ∣ channelWidth ∨ 0 < wires channelWidth d ∧ total ws = 0 := by
  constructor
  · rintro ⟨r, hr⟩
    by_contra hshared
    obtain ⟨heven, hserved⟩ := not_or.mp hshared
    obtain ⟨shares, -, hcounts⟩ := exists_counts htotal hdemand (not_not.mp heven) fun hwires =>
      Nat.pos_of_ne_zero fun hzero => hserved ⟨hwires, hzero⟩
    simp [hcounts] at hr
  · intro hrefused
    by_cases heven : d.tracksPerWire ∣ channelWidth
    · have hnone := hrefused.resolve_left (not_not.mpr heven)
      rw [tracksPerType, if_neg (not_not.mpr (Nat.mod_eq_zero_of_dvd heven)),
        Word.sum_of_lt (htotal.trans (by decide)), Outcome.liftM_ok, Outcome.ok_bind,
        if_pos hnone]
      exact ⟨_, rfl⟩
    · rw [tracksPerType, if_pos fun hzero => heven (Nat.dvd_of_mod_eq_zero hzero)]
      exact ⟨_, rfl⟩

end

/-- **Tracks are apportioned by the largest remainders.**  Let the demands of all types and their
frequencies together be signed words.  A channel is refused exactly if it is not made of whole wires
or no type has a frequency to share it out by.  Otherwise each type gets the whole wires in its
share, and one more if its remainder is among the largest, as many as there are wires left over;
of equal remainders the type listed first counts as the larger.  The tracks fill the channel, and a
type without a frequency has none of them. -/
theorem tracksPerType_eq_largestRemainder {channelWidth : Nat} {d : Directionality}
    (htotal : total ws < 2 ^ 63)
    (hdemand : ∀ w ∈ ws, wires channelWidth d * w.frequency < 2 ^ 63) :
    ((∃ r, tracksPerType channelWidth ws d = .error (.refused r)) ↔
      ¬ d.tracksPerWire ∣ channelWidth ∨ 0 < wires channelWidth d ∧ total ws = 0) ∧
    (d.tracksPerWire ∣ channelWidth → (0 < wires channelWidth d → 0 < total ws) →
      ∃ counts, tracksPerType channelWidth ws d = .ok counts ∧ (0 < wires channelWidth d →
        counts = List.ofFn (fun i => d.tracksPerWire
          * (whole (wires channelWidth d) ws i + extra (wires channelWidth d) ws i)) ∧
        (Finset.univ.filter fun i => extra (wires channelWidth d) ws i = 1).card
          = spare (wires channelWidth d) ws ∧
        counts.sum = channelWidth ∧
        ∀ i : Fin ws.length, ws[i].frequency = 0 → counts[i]? = some 0)) := by
  refine ⟨exists_refused_iff htotal hdemand, fun heven hserved => ?_⟩
  obtain ⟨shares, hgranted, hcounts⟩ := exists_counts htotal hdemand heven hserved
  refine ⟨_, hcounts, fun hwires => ?_⟩
  obtain ⟨g, rfl, hsettled⟩ := exists_settled (hserved hwires) htotal hdemand hgranted
  refine ⟨?_, hsettled.card_extra, (sum_tracksPerType hcounts).2, fun i hzero => ?_⟩
  · rw [List.map_ofFn]
    refine congrArg List.ofFn (funext fun i => ?_)
    rw [Function.comp_apply, hsettled.units_eq, hsettled.extra_eq, Nat.mul_comm]
  · simp [hsettled.units_eq_zero hzero]

/-- Wire types for six wires, the second and the third with equal remainders. -/
def tied : List WireType := [⟨"long", 4, 5⟩, ⟨"first", 2, 3⟩, ⟨"second", 2, 3⟩, ⟨"idle", 1, 0⟩]

/-- The two wires that are left over go to the largest remainder and to the first of the others. -/
theorem tracksPerType_eq_largestRemainder_tied : ∃ counts,
    tracksPerType 12 tied .unidirectional = .ok counts ∧ counts = [6, 4, 2, 0] ∧
    counts.sum = 12 ∧ spare 6 tied = 2 ∧
    ∃ r, tracksPerType 13 tied .unidirectional = .error (.refused r) := by
  obtain ⟨-, hcounts⟩ := @tracksPerType_eq_largestRemainder tied 12 .unidirectional
    (by decide) (by decide)
  obtain ⟨hrefused, -⟩ := @tracksPerType_eq_largestRemainder tied 13 .unidirectional
    (by decide) (by decide)
  obtain ⟨counts, hcounts, hshared⟩ := hcounts (by decide) (by decide)
  obtain ⟨heq, -, hsum, -⟩ := hshared (by decide)
  exact ⟨counts, hcounts, heq.trans (by decide), hsum, by decide, hrefused.mpr (by decide)⟩

end LargestRemainder

end FpgaRouting
