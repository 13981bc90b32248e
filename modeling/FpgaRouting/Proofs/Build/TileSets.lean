import FpgaRouting.Proofs.Build.Periodicity
import FpgaRouting.Proofs.Build.Tiles

/-!
# Proofs/Build/TileSets — a build depends on the set of its tiles

      a ──▸ b ──▸ a ──▸ c           c ──▸ b ──▸ a
      the second a adds nothing     each tile adds to keys of its own

Tiles are entered into one map, one after another.  A tile adds to its own keys only, and what it
adds again is there already.  **So a key has what its tile computed alone gives it**, and neither the
order of the tiles nor their repetition can be seen: two lists with the same tiles build the same
map, the order of the targets of each key included, and a list that is cut in two builds the merge
of what the parts build (`connectionsOver_eq_ok_iff_of_mem_iff`).
-/

namespace FpgaRouting

namespace Fabric

variable {f : Fabric} {ts ts' : List Tile} {m : Connections}

/-! ## The keys of a build -/

/-- A key at a tile of the list has what the tile computed alone gives it. -/
theorem get?_connectionsOver_of_mem (h : f.connectionsOver ts = .ok m) {k : Key}
    (hk : k.tile ∈ ts) : ∃ mt, f.connectionsAt k.tile = .ok mt ∧ m.get? k = mt.get? k := by
  obtain ⟨mt, hmt, htargets⟩ := exists_connectionsAt_of_mem h hk
  refine ⟨mt, hmt, ?_⟩
  rw [Connections.get?_eq, Connections.get?_eq mt, htargets, if_pos rfl]

/-- A key at any other tile is absent. -/
theorem get?_connectionsOver_of_not_mem (h : f.connectionsOver ts = .ok m) {k : Key}
    (hk : k.tile ∉ ts) : m.get? k = none := by
  rw [Connections.get?_eq, targetsOf_connectionsOver h, if_neg hk, if_pos rfl]

/-! ## Lists with the same tiles -/

/-- **A map that a list builds is built by every list with the same tiles.** -/
theorem connectionsOver_congr (hmem : ∀ t, t ∈ ts ↔ t ∈ ts') (h : f.connectionsOver ts = .ok m) :
    f.connectionsOver ts' = .ok m := by
  have hcomputes := exists_connectionsOver_eq_ok_iff.mp ⟨m, h⟩
  obtain ⟨m', hm'⟩ := exists_connectionsOver_eq_ok_iff.mpr fun t ht => hcomputes t ((hmem t).mpr ht)
  obtain rfl : m = m' := by
    -- A key has what its tile adds, whichever of the lists the tile stands in.
    ext k : 1
    rw [targetsOf_connectionsOver h, targetsOf_connectionsOver hm']
    exact if_congr (hmem k.tile) rfl rfl
  exact hm'

/-! ## A list in two parts -/

/-- **A list in two parts builds the merge of what they build**, or fails with the first of them
that fails. -/
theorem connectionsOver_append (f : Fabric) (ts us : List Tile) :
    f.connectionsOver (ts ++ us) = do
      let m ← f.connectionsOver ts
      let n ← f.connectionsOver us
      return m.merge n := by
  rw [connectionsOver, List.foldlM_append, connectionsOver, connectionsOver]
  refine congrArg _ (funext fun m => ?_)
  rw [Connections.foldlM_eq_merge addTile_eq, bind_pure_comp]

/-- **A build depends on the set of its tiles.**  Of two lists with the same tiles, in any order and
however often each of them stands there, both build the same map or neither builds one; the map is
the same down to the order in which the targets of a key stand.  In it a key at a tile of the list
has what the tile computed alone gives it, and no other key is present.  A list that is put together
from two builds what the first builds, with what the second builds merged into it. -/
theorem connectionsOver_eq_ok_iff_of_mem_iff (f : Fabric) :
    (∀ ts ts' : List Tile, (∀ t, t ∈ ts ↔ t ∈ ts') → ∀ m,
      f.connectionsOver ts = .ok m ↔ f.connectionsOver ts' = .ok m) ∧
    (∀ ts m, f.connectionsOver ts = .ok m → ∀ k : Key,
      (k.tile ∈ ts → ∃ mt, f.connectionsAt k.tile = .ok mt ∧ m.get? k = mt.get? k) ∧
      (k.tile ∉ ts → m.get? k = none)) ∧
    ∀ ts us : List Tile, f.connectionsOver (ts ++ us) = do
      let m ← f.connectionsOver ts
      let n ← f.connectionsOver us
      return m.merge n := by
  refine ⟨?_, ?_, f.connectionsOver_append⟩
  · intro ts ts' hmem m
    exact ⟨connectionsOver_congr hmem, connectionsOver_congr fun t => (hmem t).symm⟩
  · intro ts m h k
    exact ⟨get?_connectionsOver_of_mem h, get?_connectionsOver_of_not_mem h⟩

set_option maxRecDepth 4000 in
/-- Two tiles of the small device with staggered wires, built one after the other, are built the
other way round and with one of them repeated. -/
theorem connectionsOver_eq_ok_iff_of_mem_iff_staggered :
    ∃ f m n, ofArchitecture staggered = .ok f ∧ f.connectionsOver [⟨2, 1⟩] = .ok m ∧
      f.connectionsOver [⟨1, 2⟩] = .ok n ∧
      m.get? ⟨2, 1, .top, .bottom, 1⟩ = some [⟨0, "mux"⟩, ⟨1, "mux"⟩] ∧
      n.get? ⟨1, 2, .bottom, .top, 0⟩ = some [⟨1, "mux"⟩] ∧
      f.connectionsOver [⟨2, 1⟩, ⟨1, 2⟩] = .ok (m.merge n) ∧
      f.connectionsOver [⟨1, 2⟩, ⟨2, 1⟩, ⟨1, 2⟩] = .ok (m.merge n) := by
  have hparts : ∃ f m n, ofArchitecture staggered = .ok f ∧ f.connectionsOver [⟨2, 1⟩] = .ok m ∧
      f.connectionsOver [⟨1, 2⟩] = .ok n ∧
      m.get? ⟨2, 1, .top, .bottom, 1⟩ = some [⟨0, "mux"⟩, ⟨1, "mux"⟩] ∧
      n.get? ⟨1, 2, .bottom, .top, 0⟩ = some [⟨1, "mux"⟩] :=
    ⟨_, _, _, by cbv, by cbv, by cbv, by cbv, by cbv⟩
  obtain ⟨f, m, n, haccept, hm, hn, htop, hbottom⟩ := hparts
  obtain ⟨hsame, -, happend⟩ := f.connectionsOver_eq_ok_iff_of_mem_iff
  have hboth : f.connectionsOver [⟨2, 1⟩, ⟨1, 2⟩] = .ok (m.merge n) := by
    rw [← List.singleton_append, happend, hm, hn]
    rfl
  have hmem : ∀ t : Tile, t ∈ [⟨2, 1⟩, ⟨1, 2⟩] ↔ t ∈ [⟨1, 2⟩, ⟨2, 1⟩, ⟨1, 2⟩] := by
    intro t
    simp only [List.mem_cons, List.not_mem_nil, or_false]
    tauto
  exact ⟨f, m, n, haccept, hm, hn, htop, hbottom, hboth, (hsame _ _ hmem _).mp hboth⟩

end Fabric

end FpgaRouting
