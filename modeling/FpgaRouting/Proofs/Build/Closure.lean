import FpgaRouting.Proofs.Build.Contributions
import FpgaRouting.Proofs.Build.Periodicity
import FpgaRouting.Proofs.Build.Tiles

/-!
# Proofs/Build/Closure — a tile holds the targets of its keys, both ways

      k ──▸ u            the key k has the target u
      k ◂── u            on a bidirectional device, u then leads back to k

The map of a tile is filled by loops over switchblocks, tracks and side pairs, and with wires of no
heading each connection is entered twice.  An addition to a key comes from the targets of that key,
or from those of a key that it reverses.  **A tile is therefore computed exactly if all of its keys
have targets**; without reverses a key holds its own targets in their order, and with them the
connections that lead either way (`connectionsAt_closes_targets`).
-/

namespace FpgaRouting

/-! ## The keys at a tile -/

/-- Of distinct members the one that has anything contributes alone. -/
theorem flatMap_eq_of_forall_ne {α β : Type} {as : List α} (hnodup : as.Nodup) {a : α}
    (ha : a ∈ as) {g : α → List β} (h : ∀ b ∈ as, b ≠ a → g b = []) : as.flatMap g = g a := by
  obtain ⟨xs, ys, rfl⟩ := List.append_of_mem ha
  obtain ⟨hmem, -⟩ := List.nodup_cons.mp (List.nodup_middle.mp hnodup)
  have hnil : ∀ b ∈ xs ++ ys, g b = [] := by
    intro b hb
    refine h b ?_ fun heq => hmem (heq ▸ hb)
    rcases List.mem_append.mp hb with hb | hb
    · exact List.mem_append_left _ hb
    · exact List.mem_append_right _ (List.mem_cons_of_mem _ hb)
  rw [List.flatMap_append, List.flatMap_cons,
    List.flatMap_eq_nil_iff.mpr fun b hb => hnil b (List.mem_append_left _ hb),
    List.flatMap_eq_nil_iff.mpr fun b hb => hnil b (List.mem_append_right _ hb),
    List.nil_append, List.append_nil]

namespace Fabric

variable {f : Fabric} {k : Key} {t : Tile} {m : Connections}

/-- **The keys that are asked for**: those with distinct sides, and with tracks of the device. -/
theorem mem_keysAt_iff :
    k ∈ f.keysAt t ↔ k.tile = t ∧ k.enter ≠ k.leave ∧ k.track < f.device.channelWidth := by
  constructor
  · intro hk
    obtain ⟨track, htrack, hk⟩ := List.mem_flatMap.mp hk
    obtain ⟨p, -, rfl⟩ := List.mem_map.mp hk
    exact ⟨rfl, p.enter_ne_leave, List.mem_range.mp htrack⟩
  · rintro ⟨rfl, hsides, htrack⟩
    exact List.mem_flatMap.mpr ⟨k.track, List.mem_range.mpr htrack,
      List.mem_map.mpr ⟨⟨k.enter, k.leave, hsides⟩, SidePair.mem_all _, rfl⟩⟩

theorem nodup_keysAt (f : Fabric) (t : Tile) : (f.keysAt t).Nodup := by
  refine List.nodup_flatMap.mpr ⟨fun track _ => ?_, ?_⟩
  · refine List.Nodup.map (fun p q hpq => ?_) (by decide)
    obtain ⟨-, -, henter, hleave, -⟩ := Key.mk.inj hpq
    exact SidePair.ext henter hleave
  · refine List.nodup_range.imp fun {i j} hij => ?_
    intro k hi hj
    obtain ⟨p, -, rfl⟩ := List.mem_map.mp hi
    obtain ⟨q, -, hq⟩ := List.mem_map.mp hj
    exact hij (congrArg Key.track hq).symm

/-! ## What a tile adds -/

/-- Whether a key has a target. -/
def Connects (f : Fabric) (k : Key) (t : Target) : Prop := ∃ ts, f.targets k = .ok ts ∧ t ∈ ts

/-- **A tile is computed exactly if each of its keys has targets.** -/
theorem computes_iff_exists_targets :
    f.Computes t ↔ ∀ k ∈ f.keysAt t, ∃ ts, f.targets k = .ok ts := by
  simp only [Computes, tileAdditions, targets_eq_map, Outcome.exists_map_eq_ok_iff,
    Outcome.exists_mapM_eq_ok_iff, switchblockAdditions, keyAdditions]
  exact ⟨fun hall k hk s hs => hall s hs k hk, fun hall s hs k hk => hall k hk s hs⟩

/-- **What a tile adds, from what its switchblocks have found** for its keys. -/
theorem Computes.exists_found (h : f.Computes t) :
    ∃ found : Switchblock → Key → List Target,
      f.tileAdditions t = .ok (f.switchblocks.flatMap fun s =>
        (f.keysAt t).flatMap fun k => (found s k).flatMap (f.connectionAdditions k)) ∧
      ∀ k ∈ f.keysAt t,
        f.targets k = .ok ((f.switchblocks.flatMap (found · k)).foldl addOnce []) := by
  have hfound : ∀ s k, s ∈ f.switchblocks → k ∈ f.keysAt t → ∃ ts, f.targetsIn k s = .ok ts := by
    intro s k hs hk
    have htargets := computes_iff_exists_targets.mp h k hk
    rw [targets_eq_map, Outcome.exists_map_eq_ok_iff, Outcome.exists_mapM_eq_ok_iff] at htargets
    exact htargets s hs
  -- One choice serves both: the additions take it tile by tile, the targets key by key.
  choose! found hfound using hfound
  refine ⟨found, ?_, fun k hk => ?_⟩
  · have hkey : ∀ s ∈ f.switchblocks, ∀ k ∈ f.keysAt t,
        f.keyAdditions s k = .ok ((found s k).flatMap (f.connectionAdditions k)) := by
      intro s hs k hk
      rw [keyAdditions, hfound s k hs hk]
      rfl
    have hswitchblock : ∀ s ∈ f.switchblocks, f.switchblockAdditions t s
        = .ok ((f.keysAt t).flatMap fun k => (found s k).flatMap (f.connectionAdditions k)) := by
      intro s hs
      rw [switchblockAdditions, Outcome.mapM_eq_ok (hkey s hs)]
      rfl
    rw [tileAdditions, Outcome.mapM_eq_ok hswitchblock]
    rfl
  · rw [targets_eq_map, Outcome.mapM_eq_ok fun s hs => hfound s k hs hk]
    rfl

/-- **What is added leads on from a key of the tile**, or back to one. -/
theorem mem_tileAdditions_iff {es : List (Key × Target)} (h : f.tileAdditions t = .ok es)
    {e : Key × Target} :
    e ∈ es ↔ ∃ k ∈ f.keysAt t, ∃ u, f.Connects k u ∧ e ∈ f.connectionAdditions k u := by
  obtain ⟨found, hadditions, htargets⟩ := Computes.exists_found ⟨es, h⟩
  obtain rfl := Except.ok.inj (h.symm.trans hadditions)
  have hconnects : ∀ k ∈ f.keysAt t, ∀ u,
      f.Connects k u ↔ ∃ s ∈ f.switchblocks, u ∈ found s k := by
    intro k hk u
    simp [Connects, htargets k hk, mem_foldl_addOnce]
  simp only [List.mem_flatMap]
  constructor
  · rintro ⟨s, hs, k, hk, u, hu, he⟩
    exact ⟨k, hk, u, (hconnects k hk u).mpr ⟨s, hs, hu⟩, he⟩
  · rintro ⟨k, hk, u, hu, he⟩
    obtain ⟨s, hs, hu⟩ := (hconnects k hk u).mp hu
    exact ⟨s, hs, k, hk, u, hu, he⟩

/-- Wires of one heading are entered one way. -/
theorem connectionAdditions_of_unidirectional (h : f.directionality = .unidirectional) (k : Key)
    (u : Target) : f.connectionAdditions k u = [(k, u)] := by
  rw [connectionAdditions, h]

theorem connectionAdditions_of_bidirectional (h : f.directionality = .bidirectional) (k : Key)
    (u : Target) :
    f.connectionAdditions k u = [(k, u), (k.reverse u, ⟨k.track, u.switchName⟩)] := by
  rw [connectionAdditions, h]

/-- **Without reverses a key is added its own targets.** -/
theorem targets_eq_addedTo (hheading : f.directionality = .unidirectional)
    (h : f.Computes k.tile) (hk : k ∈ f.keysAt k.tile) :
    f.targets k = .ok ((f.addedTo k).foldl addOnce []) := by
  obtain ⟨found, hadditions, htargets⟩ := h.exists_found
  have hadded : f.addedTo k = f.switchblocks.flatMap (found · k) := by
    simp only [addedTo, hadditions, connectionAdditions_of_unidirectional hheading,
      List.filter_flatMap, List.map_flatMap]
    refine List.flatMap_congr fun s _ => ?_
    -- A switchblock asks for each key once, so nothing else is added to `k`.
    rw [flatMap_eq_of_forall_ne (nodup_keysAt f _) hk]
    · simp
    · intro l _ hne
      simp [hne]
  rw [htargets k hk, hadded]

/-- **Wires of no heading are entered both ways.** -/
theorem mem_connectionAdditions_iff (h : f.directionality = .bidirectional) {l : Key}
    {u w : Target} :
    (k, u) ∈ f.connectionAdditions l w
      ↔ l = k ∧ w = u ∨ l = k.reverse u ∧ w = ⟨k.track, u.switchName⟩ := by
  rw [connectionAdditions_of_bidirectional h]
  simp only [List.mem_pair, Prod.mk.injEq]
  refine or_congr (and_congr eq_comm eq_comm) ⟨?_, ?_⟩
  · rintro ⟨rfl, rfl⟩
    exact ⟨rfl, rfl⟩
  · rintro ⟨rfl, rfl⟩
    exact ⟨rfl, rfl⟩

/-- **An addition leads on from its key**, or back to it where wires have no heading. -/
theorem eq_or_reverse_of_mem_connectionAdditions {l : Key} {u w : Target}
    (h : (k, u) ∈ f.connectionAdditions l w) :
    l = k ∧ w = u
      ∨ f.directionality = .bidirectional ∧ l = k.reverse u ∧ w = ⟨k.track, u.switchName⟩ := by
  cases hheading : f.directionality with
  | unidirectional =>
    rw [connectionAdditions_of_unidirectional hheading, List.mem_singleton] at h
    obtain ⟨rfl, rfl⟩ := Prod.mk.inj h
    exact .inl ⟨rfl, rfl⟩
  | bidirectional =>
    exact ((mem_connectionAdditions_iff hheading).mp h).imp_right fun hback => ⟨rfl, hback⟩

theorem enter_ne_leave_of_mem_connectionAdditions {u : Target} {e : Key × Target}
    (h : e ∈ f.connectionAdditions k u) (hk : k.enter ≠ k.leave) : e.1.enter ≠ e.1.leave := by
  rw [connectionAdditions] at h
  split at h
  · rcases List.mem_pair.mp h with rfl | rfl
    · exact hk
    · exact hk.symm
  · obtain rfl := List.mem_singleton.mp h
    exact hk

/-- **A key that has a target leads somewhere**: from one side to another, both with channels, and
from a track of theirs. -/
theorem Regular.leads_of_connects (h : f.Regular) (hx : k.x < 2 ^ 64 - 1) (hy : k.y < 2 ^ 64 - 1)
    {u : Target} (hconnects : f.Connects k u) :
    k.enter ≠ k.leave ∧ f.HasChannel k.tile k.enter ∧ f.HasChannel k.tile k.leave
      ∧ k.track < f.device.channelWidth := by
  obtain ⟨ts, hts, hu⟩ := hconnects
  by_contra hnowhere
  have hnil : f.targets k = .ok [] := by
    refine h.targets_eq_nil hx hy ?_
    rw [← not_lt]
    tauto
  obtain rfl := Except.ok.inj (hts.symm.trans hnil)
  exact List.not_mem_nil hu

/-- **A key that has a target is asked for.** -/
theorem Regular.mem_keysAt_of_connects (h : f.Regular) (hx : k.x < 2 ^ 64 - 1)
    (hy : k.y < 2 ^ 64 - 1) {u : Target} (hconnects : f.Connects k u) : k ∈ f.keysAt k.tile := by
  obtain ⟨hsides, -, -, htrack⟩ := h.leads_of_connects hx hy hconnects
  exact mem_keysAt_iff.mpr ⟨rfl, hsides, htrack⟩

/-! ## Computed tiles -/

/-- **A build over some tiles holds what is added to its keys.** -/
theorem has_connectionsOver_iff {ts : List Tile} (h : f.connectionsOver ts = .ok m) {u : Target} :
    m.Has k u ↔ k.tile ∈ ts ∧
      ∃ l ∈ f.keysAt k.tile, ∃ w, f.Connects l w ∧ (k, u) ∈ f.connectionAdditions l w := by
  change u ∈ m.targetsOf k ↔ _
  rw [targetsOf_connectionsOver h]
  split_ifs with htile
  · obtain ⟨es, hes⟩ := exists_connectionsOver_eq_ok_iff.mp ⟨m, h⟩ k.tile htile
    rw [← mem_tileAdditions_iff hes, mem_foldl_addOnce, addedTo, hes]
    simp [htile]
  · simp [htile]

theorem has_connectionsAt_iff (h : f.connectionsAt t = .ok m) {u : Target} :
    m.Has k u ↔ ∃ l ∈ f.keysAt t, ∃ w, f.Connects l w ∧ (k, u) ∈ f.connectionAdditions l w := by
  rw [connectionsAt_eq_connectionsOver] at h
  rw [has_connectionsOver_iff h, List.mem_singleton]
  constructor
  · rintro ⟨rfl, hadds⟩
    exact hadds
  · rintro ⟨l, hl, w, hconnects, hadd⟩
    obtain rfl : k.tile = t :=
      (tile_of_mem_connectionAdditions hadd).trans (tile_of_mem_keysAt hl)
    exact ⟨rfl, l, hl, w, hconnects, hadd⟩

theorem sides_of_contains_connectionsAt (h : f.connectionsAt t = .ok m)
    (hk : m.contains k = true) : k.tile = t ∧ k.enter ≠ k.leave := by
  obtain ⟨u, hu⟩ := Connections.exists_has_of_contains hk
  obtain ⟨l, hl, w, -, hadd⟩ := (has_connectionsAt_iff h).mp hu
  obtain ⟨htile, hsides, -⟩ := mem_keysAt_iff.mp hl
  exact ⟨(tile_of_mem_connectionAdditions hadd).trans htile,
    enter_ne_leave_of_mem_connectionAdditions hadd hsides⟩

section

variable (hregular : f.Regular) (h : f.connectionsAt t = .ok m) (hk : k.tile = t)
  (hx : t.x < 2 ^ 64 - 1) (hy : t.y < 2 ^ 64 - 1)

include hregular h hk hx hy

theorem get?_connectionsAt_of_unidirectional (hheading : f.directionality = .unidirectional)
    (hsides : k.enter ≠ k.leave) :
    ∃ ts, f.targets k = .ok ts ∧ m.get? k = if ts = [] then none else some ts := by
  subst hk
  refine ⟨m.targetsOf k, ?_, m.get?_eq k⟩
  by_cases htrack : k.track < f.device.channelWidth
  · have hmem : k ∈ f.keysAt k.tile := mem_keysAt_iff.mpr ⟨rfl, hsides, htrack⟩
    have hone := (connectionsAt_eq_connectionsOver k.tile).symm.trans h
    have hcomputes := exists_connectionsOver_eq_ok_iff.mp ⟨m, hone⟩ _ (List.mem_singleton_self _)
    rw [targets_eq_addedTo hheading hcomputes hmem, targetsOf_connectionsOver hone,
      if_pos (List.mem_singleton_self _)]
  · -- A track that no channel has is never asked for; nor has it targets.
    have hnone : m.targetsOf k = [] := by
      refine List.eq_nil_iff_forall_not_mem.mpr fun u hu => ?_
      obtain ⟨l, hl, w, -, hadd⟩ := (has_connectionsAt_iff h).mp hu
      rw [connectionAdditions_of_unidirectional hheading, List.mem_singleton] at hadd
      obtain ⟨rfl, -⟩ := Prod.mk.inj hadd
      exact htrack (mem_keysAt_iff.mp hl).2.2
    rw [hnone]
    exact hregular.targets_eq_nil hx hy (.inr (.inr (.inr (not_lt.mp htrack))))

theorem has_connectionsAt_of_bidirectional (hheading : f.directionality = .bidirectional)
    (u : Target) :
    m.Has k u ↔ f.Connects k u ∨ f.Connects (k.reverse u) ⟨k.track, u.switchName⟩ := by
  subst hk
  rw [has_connectionsAt_iff h]
  simp only [mem_connectionAdditions_iff hheading]
  constructor
  · rintro ⟨l, -, w, hconnects, ⟨rfl, rfl⟩ | ⟨rfl, rfl⟩⟩
    · exact .inl hconnects
    · exact .inr hconnects
  · rintro (hconnects | hconnects)
    · exact ⟨k, hregular.mem_keysAt_of_connects hx hy hconnects, u, hconnects, .inl ⟨rfl, rfl⟩⟩
    · exact ⟨k.reverse u, hregular.mem_keysAt_of_connects hx hy hconnects, _, hconnects,
        .inr ⟨rfl, rfl⟩⟩

end

/-- **A tile holds the targets of its keys, closed under reversal.**  On an accepted device within
the limit, a tile is computed exactly if all its keys have targets.  It then holds keys of its own
only, with distinct sides.  Wires of one heading leave each key its own targets in their order, or
leave it out; with wires of no heading a key holds a target exactly if one leads to the other,
either way. -/
theorem connectionsAt_closes_targets {a : Architecture} (haccept : ofArchitecture a = .ok f)
    (hsize : Moderate a.device a.wireTypes) (hx : t.x < 2 ^ 64 - 1) (hy : t.y < 2 ^ 64 - 1) :
    ((∃ m, f.connectionsAt t = .ok m) ↔
      ∀ (p : SidePair) (track : Nat), track < f.device.channelWidth →
        ∃ ts, f.targets ⟨t.x, t.y, p.enter, p.leave, track⟩ = .ok ts) ∧
    ∀ m, f.connectionsAt t = .ok m →
      (∀ k, m.contains k = true → k.tile = t ∧ k.enter ≠ k.leave) ∧
      ∀ k, k.tile = t → k.enter ≠ k.leave →
        (f.directionality = .unidirectional →
          ∃ ts, f.targets k = .ok ts ∧ m.get? k = if ts = [] then none else some ts) ∧
        (f.directionality = .bidirectional → ∀ u,
          m.Has k u ↔ f.Connects k u ∨ f.Connects (k.reverse u) ⟨k.track, u.switchName⟩) := by
  have hregular := regular_of_architecture haccept hsize
  refine ⟨?_, fun m hm => ⟨fun k hk => sides_of_contains_connectionsAt hm hk, ?_⟩⟩
  · rw [connectionsAt_eq_connectionsOver, exists_connectionsOver_eq_ok_iff,
      List.forall_mem_singleton, computes_iff_exists_targets]
    constructor
    · intro hall p track htrack
      exact hall _ (mem_keysAt_iff.mpr ⟨rfl, p.enter_ne_leave, htrack⟩)
    · intro hall k hk
      obtain ⟨rfl, hsides, htrack⟩ := mem_keysAt_iff.mp hk
      exact hall ⟨k.enter, k.leave, hsides⟩ k.track htrack
  · intro k hk hsides
    refine ⟨fun hheading => ?_, has_connectionsAt_of_bidirectional hregular hm hk hx hy⟩
    exact get?_connectionsAt_of_unidirectional hregular hm hk hx hy hheading hsides

set_option maxRecDepth 4000 in
/-- An inner tile of the small bidirectional device.  A key that no formula is given for holds the
reverse of a connection. -/
theorem connectionsAt_closes_targets_staggered : ∃ f m, ofArchitecture staggered = .ok f ∧
    f.connectionsAt ⟨2, 1⟩ = .ok m ∧ f.targets ⟨2, 1, .top, .bottom, 1⟩ = .ok [] ∧
    m.Has ⟨2, 1, .top, .bottom, 1⟩ ⟨0, "mux"⟩ := by
  refine ⟨_, _, by cbv, by cbv, by cbv, ?_⟩
  have hclosed := (@connectionsAt_closes_targets _ ⟨2, 1⟩ staggered (by cbv) (by decide) (by decide)
    (by decide)).2 _ (by cbv)
  refine ((hclosed.2 ⟨2, 1, .top, .bottom, 1⟩ rfl (by decide)).2 rfl ⟨0, "mux"⟩).mpr (.inr ?_)
  exact ⟨[⟨1, "mux"⟩], by cbv, by decide⟩

end Fabric

end FpgaRouting
