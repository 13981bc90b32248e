import FpgaRouting.Proofs.Connections.Additions
import FpgaRouting.Proofs.Connections.Ranges

/-!
# Proofs/Connections/Histories — a map keeps what was added to it, and nothing of how

      empty ── add k a ── add l b ──┐
                                    merge ──▸   k leads to a, c      l leads to b
      empty ── add k c ── add k a ──┘

A map comes about by additions one by one and by merging maps that have come about in the same way.
A `History` is such a course of events, and its `additions` are all that was ever added, in order.
Merged or not, **a key leads to the targets that were added to it, each where it was first added**
(`targetsOf_run`), and what a map counts, lists or answers is read off from that.
-/

namespace FpgaRouting

/-- **The order of keys, field by field**: column, row, entering side, leaving side and track. -/
def Key.Before (k l : Key) : Prop :=
  k.x < l.x ∨ k.x = l.x ∧ (k.y < l.y ∨ k.y = l.y ∧
    (k.enter.rank < l.enter.rank ∨ k.enter.rank = l.enter.rank ∧
      (k.leave.rank < l.leave.rank ∨ k.leave.rank = l.leave.rank ∧ k.track < l.track)))

theorem Key.compare_eq_lt_iff {k l : Key} : compare k l = .lt ↔ k.Before l := by
  have horder : compare k l = order k l := rfl
  have hside : ∀ s s' : Side, compare s s' = compare s.rank s'.rank := fun _ _ => rfl
  simp only [horder, order, compareLex, compareOn, hside, Ordering.then_eq_lt,
    Nat.compare_eq_lt, Nat.compare_eq_eq, Before]

namespace Connections

variable {m n p : Connections} {k : Key} {t : Target}

theorem contains_iff_targetsOf_ne_nil : m.contains k = true ↔ m.targetsOf k ≠ [] := by
  rw [contains, get?_eq]
  split_ifs with h <;> simp [h]

/-! ## Additions that change nothing -/

theorem add_of_has (h : m.Has k t) : m.add k t = m := by
  ext l : 1
  rw [targetsOf_add]
  split_ifs with hkl
  · subst hkl
    exact if_pos h
  · rfl

theorem addIfNew_fst_iff : (m.addIfNew k t).1 = true ↔ ¬ m.Has k t := by
  rw [addIfNew, Has]
  split_ifs with h <;> simp [h]

/-- **A target that is new or not**, the map afterwards is the one with it. -/
theorem addIfNew_snd (m : Connections) (k : Key) (t : Target) : (m.addIfNew k t).2 = m.add k t := by
  rw [addIfNew]
  split_ifs with h
  · exact (add_of_has h).symm
  · rfl

/-! ## The algebra of merging -/

@[simp] theorem empty_merge (m : Connections) : empty.merge m = m := by
  ext k : 1
  rw [targetsOf_merge, targetsOf_empty, foldl_addOnce_nil (m.nodup_targetsOf k)]

theorem merge_self (m : Connections) : m.merge m = m := by
  ext k : 1
  rw [targetsOf_merge, foldl_addOnce_of_subset fun _ ht => ht]

theorem merge_assoc (m n p : Connections) : (m.merge n).merge p = m.merge (n.merge p) := by
  ext k : 1
  rw [targetsOf_merge, targetsOf_merge, targetsOf_merge, targetsOf_merge, foldl_addOnce_foldl]

/-- **Maps without a common key** may be merged either way round. -/
theorem merge_comm_of_disjoint (h : ∀ k, ¬ (m.contains k = true ∧ n.contains k = true)) :
    m.merge n = n.merge m := by
  ext k : 1
  have hk : m.targetsOf k = [] ∨ n.targetsOf k = [] := by
    by_contra hne
    rw [not_or] at hne
    exact h k (hne.imp contains_iff_targetsOf_ne_nil.mpr contains_iff_targetsOf_ne_nil.mpr)
  rw [targetsOf_merge, targetsOf_merge]
  rcases hk with hk | hk <;> rw [hk, List.foldl_nil, foldl_addOnce_nil (nodup_targetsOf _ k)]

/-! ## Entries and counts -/

theorem pairwise_before_toList (m : Connections) :
    m.toList.Pairwise fun e e' => e.1.Before e'.1 :=
  Std.ExtTreeMap.ordered_keys_toList.imp Key.compare_eq_lt_iff.mp

theorem nodup_keys (m : Connections) : (m.toList.map (·.1)).Nodup :=
  List.pairwise_map.mpr <| Std.ExtTreeMap.distinct_keys_toList.imp fun h heq =>
    h (Std.LawfulEqCmp.compare_eq_iff_eq.mpr heq)

theorem has_iff : m.Has k t ↔ ∃ ts, (k, ts) ∈ m.toList ∧ t ∈ ts := by
  simp only [mem_toList, Has]
  cases m.get? k <;> simp

theorem mem_keys_iff : k ∈ m.toList.map (·.1) ↔ ∃ t, m.Has k t := by
  rw [List.mem_map]
  constructor
  · rintro ⟨e, he, rfl⟩
    exact exists_has_of_contains (Option.isSome_iff_exists.mpr ⟨e.2, mem_toList.mp he⟩)
  · rintro ⟨t, ht⟩
    obtain ⟨ts, hmem, -⟩ := has_iff.mp ht
    exact ⟨(k, ts), hmem, rfl⟩

/-- The pairs of a key and one of its targets. -/
def pairs (m : Connections) : List (Key × Target) := m.toList.flatMap fun e => e.2.map (e.1, ·)

theorem length_pairs (m : Connections) : m.pairs.length = m.targetCount := by
  simp [pairs, targetCount, List.length_flatMap]

theorem mem_pairs_iff : (k, t) ∈ m.pairs ↔ m.Has k t := by
  rw [pairs, List.mem_flatMap, has_iff]
  constructor
  · rintro ⟨⟨l, ts⟩, hmem, hpair⟩
    obtain ⟨u, hu, heq⟩ := List.mem_map.mp hpair
    obtain ⟨rfl, rfl⟩ := Prod.mk.inj heq
    exact ⟨ts, hmem, hu⟩
  · rintro ⟨ts, hmem, ht⟩
    exact ⟨(k, ts), hmem, List.mem_map.mpr ⟨t, ht, rfl⟩⟩

theorem nodup_pairs (m : Connections) : m.pairs.Nodup := by
  refine List.nodup_flatMap.mpr ⟨fun e he => ?_, ?_⟩
  · exact (m.valid e.1 e.2 (mem_toList.mp he)).2.map fun _ _ h => (Prod.mk.inj h).2
  · refine (List.pairwise_map.mp m.nodup_keys).imp fun hne => List.disjoint_left.mpr ?_
    intro pair hpair hpair'
    obtain ⟨t, -, rfl⟩ := List.mem_map.mp hpair
    obtain ⟨u, -, heq⟩ := List.mem_map.mp hpair'
    exact hne (Prod.mk.inj heq).1.symm

/-! ## Histories -/

/-- A course of events from which a map comes about. -/
inductive History
  | empty
  | add (h : History) (k : Key) (t : Target)
  | merge (h other : History)
deriving DecidableEq, Repr

namespace History

/-- The map at the end of a history. -/
def run : History → Connections
  | .empty => .empty
  | .add h k t => (h.run.addIfNew k t).2
  | .merge h other => h.run.merge other.run

/-- **All that was ever added**, in order; a merged map brings what was added to it. -/
def additions : History → List (Key × Target)
  | .empty => []
  | .add h k t => h.additions ++ [(k, t)]
  | .merge h other => h.additions ++ other.additions

/-- The targets that were added to a key, in order and as often as they were added. -/
def addedTo (h : History) (k : Key) : List Target := (h.additions.filter (·.1 = k)).map (·.2)

variable {h : History}

/-- **A history ends like its additions one by one.** -/
theorem run_eq_addPairs (h : History) : h.run = Connections.empty.addPairs h.additions := by
  induction h with
  | empty => rfl
  | add h k t ih => rw [run, addIfNew_snd, ih, additions, addPairs_append]; rfl
  | merge h other ih ih' =>
    rw [run, ih', merge_addPairs, merge_empty, ih, additions, addPairs_append]

/-- **A key leads to the targets that were added to it**, each where it was first added. -/
theorem targetsOf_run (h : History) (k : Key) : h.run.targetsOf k = (h.addedTo k).eraseDups := by
  rw [run_eq_addPairs, targetsOf_addPairs, targetsOf_empty, foldl_addOnce_eq]
  simp [addedTo]

theorem mem_addedTo_iff {k : Key} {t : Target} : t ∈ h.addedTo k ↔ (k, t) ∈ h.additions := by
  simp [addedTo]

theorem has_run_iff {k : Key} {t : Target} : h.run.Has k t ↔ (k, t) ∈ h.additions := by
  rw [← mem_addedTo_iff, ← List.mem_eraseDups, ← targetsOf_run]
  rfl

theorem addedTo_eq_nil_iff {k : Key} : h.addedTo k = [] ↔ h.run.targetsOf k = [] := by
  rw [targetsOf_run, List.eq_nil_iff_forall_not_mem, List.eq_nil_iff_forall_not_mem]
  simp only [List.mem_eraseDups]

theorem get?_run (h : History) (k : Key) :
    h.run.get? k = if h.addedTo k = [] then none else some (h.addedTo k).eraseDups := by
  simp only [get?_eq, addedTo_eq_nil_iff, targetsOf_run]

/-- **As many keys as were added to.** -/
theorem size_run (h : History) : h.run.size = (h.additions.map (·.1)).toFinset.card := by
  have hlength : (h.run.toList.map (·.1)).length = h.run.size := by
    rw [List.length_map]
    exact Std.ExtTreeMap.length_toList
  rw [← hlength, ← List.toFinset_card_of_nodup (nodup_keys _)]
  congr 1
  ext k
  simp [mem_keys_iff, has_run_iff]

/-- **As many pairs as were added.** -/
theorem targetCount_run (h : History) : h.run.targetCount = h.additions.toFinset.card := by
  rw [← length_pairs, ← List.toFinset_card_of_nodup (nodup_pairs _)]
  congr 1
  ext ⟨k, t⟩
  simp [mem_pairs_iff, has_run_iff]

theorem contains_run_iff {k : Key} : h.run.contains k = true ↔ k ∈ h.additions.map (·.1) := by
  rw [contains_iff_targetsOf_ne_nil, ne_eq, ← addedTo_eq_nil_iff, addedTo]
  simp

/-- **Whatever the history, a map is the ordered map of what was added.**  A key is absent if
nothing was added to it, and otherwise leads to its distinct targets, each where it was first added;
an addition reports whether the pair was new; keys and pairs are counted without repetitions; the
entries are in the order of their keys, and those of a tile are the ones between its least and its
greatest key.  Merging is associative and idempotent, has the empty map as its unit, and is
commutative for maps that share no key. -/
theorem run_keeps_additions (h i j : History) (hwords : ∀ e ∈ h.additions, e.1.track < 2 ^ 64) :
    (∀ k, h.run.get? k = if h.addedTo k = [] then none else some (h.addedTo k).eraseDups) ∧
    (∀ k ts, h.run.get? k = some ts → ts ≠ [] ∧ ts.Nodup) ∧
    (∀ k t, (h.run.addIfNew k t).1 = true ↔ (k, t) ∉ h.additions) ∧
    h.run.size = (h.additions.map (·.1)).toFinset.card ∧
    h.run.targetCount = h.additions.toFinset.card ∧
    (∀ e, e ∈ h.run.toList ↔ h.run.get? e.1 = some e.2) ∧
    (h.run.toList.Pairwise fun e e' => e.1.Before e'.1) ∧
    (∀ t, h.run.atTile t = h.run.between (.first t) (.last t) ∧
      h.run.atTile t = h.run.toList.filter fun e => e.1.x = t.x ∧ e.1.y = t.y) ∧
    (h.run.merge i.run).merge j.run = h.run.merge (i.run.merge j.run) ∧
    h.run.merge h.run = h.run ∧ h.run.merge .empty = h.run ∧ Connections.empty.merge h.run = h.run ∧
    ((∀ k, ¬ (h.run.contains k = true ∧ i.run.contains k = true)) →
      h.run.merge i.run = i.run.merge h.run) := by
  have hruns : ∀ k, h.run.contains k = true → k.track < 2 ^ 64 := by
    intro k hk
    obtain ⟨t, ht⟩ := exists_has_of_contains hk
    exact hwords (k, t) (has_run_iff.mp ht)
  refine ⟨h.get?_run, h.run.valid, fun k t => ?_, h.size_run, h.targetCount_run,
    fun e => mem_toList, pairwise_before_toList _, fun t => ⟨?_, ?_⟩, merge_assoc _ _ _,
    merge_self _, merge_empty _, empty_merge _, merge_comm_of_disjoint⟩
  · rw [addIfNew_fst_iff, has_run_iff]
  · exact (between_first_last hruns t).symm
  · obtain ⟨x, y⟩ := t
    exact List.filter_congr fun e _ => by simp [Key.tile]

/-- Two keys are added to; one of them again, and with a target it has, in a map merged in. -/
def crossing : History :=
  .merge (.add (.add .empty ⟨2, 7, .left, .right, 0⟩ ⟨4, "mux"⟩) ⟨2, 7, .left, .top, 0⟩ ⟨1, "mux"⟩)
    (.add (.add .empty ⟨2, 7, .left, .right, 0⟩ ⟨6, "mux"⟩) ⟨2, 7, .left, .right, 0⟩ ⟨4, "mux"⟩)

/-- A key at another tile is added to. -/
def elsewhere : History := .add .empty ⟨3, 7, .left, .right, 0⟩ ⟨4, "mux"⟩

theorem run_keeps_additions_crossing :
    (∀ e ∈ crossing.additions, e.1.track < 2 ^ 64) ∧
    crossing.run.get? ⟨2, 7, .left, .right, 0⟩ = some [⟨4, "mux"⟩, ⟨6, "mux"⟩] ∧
    crossing.run.get? ⟨2, 7, .right, .left, 0⟩ = none ∧
    crossing.run.size = 2 ∧ crossing.run.targetCount = 3 ∧
    (crossing.run.addIfNew ⟨2, 7, .left, .right, 0⟩ ⟨6, "mux"⟩).1 = false ∧
    (∀ k, ¬ (crossing.run.contains k = true ∧ elsewhere.run.contains k = true)) ∧
    crossing.run.merge elsewhere.run = elsewhere.run.merge crossing.run := by
  have hwords : ∀ e ∈ crossing.additions, e.1.track < 2 ^ 64 := by decide
  have hdisjoint : ∀ k, ¬ (crossing.run.contains k = true ∧ elsewhere.run.contains k = true) := by
    rintro k ⟨hk, hk'⟩
    obtain rfl : k = ⟨3, 7, .left, .right, 0⟩ := by
      simpa [elsewhere, additions] using contains_run_iff.mp hk'
    exact absurd (contains_run_iff.mp hk) (by decide)
  obtain ⟨hget, -, hnew, hsize, hcount, -, -, -, -, -, -, -, hcomm⟩ :=
    run_keeps_additions crossing elsewhere .empty hwords
  refine ⟨hwords, ?_, ?_, ?_, ?_, ?_, hdisjoint, hcomm hdisjoint⟩
  · rw [hget]
    decide
  · rw [hget]
    decide
  · rw [hsize]
    decide
  · rw [hcount]
    decide
  · rw [← Bool.not_eq_true, hnew]
    decide

end History

end Connections

end FpgaRouting
