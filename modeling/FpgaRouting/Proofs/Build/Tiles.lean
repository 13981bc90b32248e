import FpgaRouting.Build.Tiles
import FpgaRouting.Proofs.Connections.Additions

/-!
# Proofs/Build/Tiles — a build goes tile by tile

    tile ──▸ keys ──▸ targets ──▸ additions ──▸ map
                         └── fails, and with it the build

What a tile adds does not depend on what has been added before, and it concerns no other tile.  **A
build over some tiles succeeds exactly if each of them does**, and a key then leads to what its own
tile has added to it (`targetsOf_connectionsOver`).
-/

namespace FpgaRouting

namespace Fabric

variable {f : Fabric}

/-! ## Additions -/

/-- What a connection adds: itself, and its reverse if wires have no heading. -/
def connectionAdditions (f : Fabric) (k : Key) (t : Target) : List (Key × Target) :=
  match f.directionality with
  | .bidirectional => [(k, t), (k.reverse t, ⟨k.track, t.switchName⟩)]
  | .unidirectional => [(k, t)]

/-- What a key adds in one switchblock. -/
def keyAdditions (f : Fabric) (s : Switchblock) (k : Key) : Outcome (List (Key × Target)) :=
  (·.flatMap (f.connectionAdditions k)) <$> f.targetsIn k s

/-- What one switchblock at a tile adds. -/
def switchblockAdditions (f : Fabric) (t : Tile) (s : Switchblock) :
    Outcome (List (Key × Target)) :=
  List.flatten <$> (f.keysAt t).mapM (f.keyAdditions s)

/-- What a tile adds. -/
def tileAdditions (f : Fabric) (t : Tile) : Outcome (List (Key × Target)) :=
  List.flatten <$> f.switchblocks.mapM (f.switchblockAdditions t)

theorem enter_eq (k : Key) (m : Connections) (t : Target) :
    f.enter k m t = m.addPairs (f.connectionAdditions k t) := by
  rw [enter, connectionAdditions]
  cases f.directionality <;> rfl

theorem foldl_enter (k : Key) (m : Connections) (ts : List Target) :
    ts.foldl (f.enter k) m = m.addPairs (ts.flatMap (f.connectionAdditions k)) := by
  induction ts generalizing m with
  | nil => rfl
  | cons t ts ih =>
    rw [List.foldl_cons, enter_eq, ih, List.flatMap_cons, Connections.addPairs_append]

theorem addKey_eq (s : Switchblock) (m : Connections) (k : Key) :
    f.addKey s m k = m.addPairs <$> f.keyAdditions s k := by
  rw [addKey, keyAdditions]
  cases f.targetsIn k s with
  | error e => rfl
  | ok ts => exact congrArg Except.ok (foldl_enter k m ts)

theorem addSwitchblock_eq (t : Tile) (m : Connections) (s : Switchblock) :
    f.addSwitchblock t m s = m.addPairs <$> f.switchblockAdditions t s := by
  rw [addSwitchblock, Connections.foldlM_addPairs (addKey_eq s), switchblockAdditions,
    Functor.map_map]

/-- **A tile adds the same to every map.** -/
theorem addTile_eq (m : Connections) (t : Tile) :
    f.addTile m t = m.addPairs <$> f.tileAdditions t := by
  rw [addTile, Connections.foldlM_addPairs (addSwitchblock_eq t), tileAdditions, Functor.map_map]

/-! ## Every addition is at its tile -/

theorem tile_of_mem_keysAt {t : Tile} {k : Key} (h : k ∈ f.keysAt t) : k.tile = t := by
  obtain ⟨track, -, hk⟩ := List.mem_flatMap.mp h
  obtain ⟨p, -, rfl⟩ := List.mem_map.mp hk
  rfl

theorem tile_of_mem_connectionAdditions {k : Key} {t : Target} {e : Key × Target}
    (h : e ∈ f.connectionAdditions k t) : e.1.tile = k.tile := by
  rw [connectionAdditions] at h
  split at h
  · rcases List.mem_pair.mp h with rfl | rfl <;> rfl
  · obtain rfl := List.mem_singleton.mp h
    rfl

theorem tile_of_mem_tileAdditions {t : Tile} {es : List (Key × Target)}
    (h : f.tileAdditions t = .ok es) {e : Key × Target} (he : e ∈ es) : e.1.tile = t := by
  obtain ⟨ess, hess, rfl⟩ := Outcome.map_eq_ok_iff.mp h
  obtain ⟨es, hes, he⟩ := List.mem_flatten.mp he
  obtain ⟨s, -, hs⟩ := Outcome.exists_of_mem_mapM hess hes
  obtain ⟨ess', hess', rfl⟩ := Outcome.map_eq_ok_iff.mp hs
  obtain ⟨es', hes', he⟩ := List.mem_flatten.mp he
  obtain ⟨k, hk, hkey⟩ := Outcome.exists_of_mem_mapM hess' hes'
  obtain ⟨ts, -, rfl⟩ := Outcome.map_eq_ok_iff.mp hkey
  obtain ⟨target, -, he⟩ := List.mem_flatMap.mp he
  rw [tile_of_mem_connectionAdditions he, tile_of_mem_keysAt hk]

/-! ## Failures -/

/-- **A tile fails with a key of it** in one of the switchblocks. -/
theorem exists_of_tileAdditions_eq_error {t : Tile} {e : Failure}
    (h : f.tileAdditions t = .error e) :
    ∃ k ∈ f.keysAt t, ∃ s ∈ f.switchblocks, f.targetsIn k s = .error e := by
  rw [tileAdditions, Outcome.map_eq_error_iff] at h
  obtain ⟨s, hs, hswitchblock⟩ := Outcome.exists_of_mapM_eq_error h
  rw [switchblockAdditions, Outcome.map_eq_error_iff] at hswitchblock
  obtain ⟨k, hk, hkey⟩ := Outcome.exists_of_mapM_eq_error hswitchblock
  rw [keyAdditions, Outcome.map_eq_error_iff] at hkey
  exact ⟨k, hk, s, hs, hkey⟩

/-! ## Builds -/

/-- Whether a tile can be computed. -/
def Computes (f : Fabric) (t : Tile) : Prop := ∃ es, f.tileAdditions t = .ok es

/-- What its own tile adds to a key. -/
def addedTo (f : Fabric) (k : Key) : List Target :=
  match f.tileAdditions k.tile with
  | .ok es => (es.filter (·.1 = k)).map (·.2)
  | .error _ => []

theorem targetsOf_addTile {m m' : Connections} {t : Tile} (h : f.addTile m t = .ok m') (k : Key) :
    m'.targetsOf k
      = if k.tile = t then (f.addedTo k).foldl addOnce (m.targetsOf k) else m.targetsOf k := by
  rw [addTile_eq] at h
  obtain ⟨es, hes, rfl⟩ := Outcome.map_eq_ok_iff.mp h
  rw [Connections.targetsOf_addPairs]
  split_ifs with htile
  · rw [addedTo, htile, hes]
  · have hnone : es.filter (·.1 = k) = [] := by
      refine List.filter_eq_nil_iff.mpr fun e he heq => htile ?_
      obtain rfl : e.1 = k := by simpa using heq
      exact tile_of_mem_tileAdditions hes he
    rw [hnone]
    rfl

/-- **In a build a key leads to what its tile has added to it.** -/
theorem targetsOf_connectionsOver {ts : List Tile} {m : Connections}
    (h : f.connectionsOver ts = .ok m) (k : Key) :
    m.targetsOf k = if k.tile ∈ ts then (f.addedTo k).foldl addOnce [] else [] := by
  rw [Connections.targetsOf_foldlM (fun _ _ _ _ => targetsOf_addTile) h,
    Connections.targetsOf_empty]

/-- **A build succeeds exactly if each of its tiles can be computed.** -/
theorem exists_connectionsOver_eq_ok_iff {ts : List Tile} :
    (∃ m, f.connectionsOver ts = .ok m) ↔ ∀ t ∈ ts, f.Computes t := by
  rw [connectionsOver, Connections.foldlM_addPairs addTile_eq]
  simp only [Outcome.map_eq_ok_iff, Computes, ← Outcome.exists_mapM_eq_ok_iff]
  exact ⟨fun ⟨_, ess, hess, _⟩ => ⟨ess, hess⟩, fun ⟨ess, hess⟩ => ⟨_, ess, hess, rfl⟩⟩

theorem connectionsAt_eq_connectionsOver (t : Tile) :
    f.connectionsAt t = f.connectionsOver [t] := by
  rw [connectionsAt, connectionsOver, List.foldlM_cons]
  cases f.addTile .empty t <;> rfl

/-- **A tile of a build can be computed alone**, and its keys then lead to the same targets. -/
theorem exists_connectionsAt_of_mem {ts : List Tile} {m : Connections}
    (h : f.connectionsOver ts = .ok m) {t : Tile} (ht : t ∈ ts) :
    ∃ mt, f.connectionsAt t = .ok mt ∧
      ∀ k, mt.targetsOf k = if k.tile = t then m.targetsOf k else [] := by
  have hall := exists_connectionsOver_eq_ok_iff.mp ⟨m, h⟩
  have hone : ∀ u ∈ [t], f.Computes u := fun u hu => hall u (List.mem_singleton.mp hu ▸ ht)
  obtain ⟨mt, hmt⟩ := exists_connectionsOver_eq_ok_iff.mpr hone
  refine ⟨mt, (connectionsAt_eq_connectionsOver t).trans hmt, fun k => ?_⟩
  rw [targetsOf_connectionsOver hmt, targetsOf_connectionsOver h]
  by_cases htile : k.tile = t
  · simp only [htile, ht, List.mem_singleton, if_true]
  · simp only [htile, List.mem_singleton, if_false]

/-- **The entries of a tile are those of the tile computed alone.** -/
theorem atTile_connectionsOver {ts : List Tile} {m : Connections}
    (h : f.connectionsOver ts = .ok m) {t : Tile} (ht : t ∈ ts) :
    ∃ mt, f.connectionsAt t = .ok mt ∧ m.atTile t = mt.toList := by
  obtain ⟨mt, hmt, htargets⟩ := exists_connectionsAt_of_mem h ht
  exact ⟨mt, hmt, Connections.atTile_eq_toList htargets⟩

end Fabric

end FpgaRouting
