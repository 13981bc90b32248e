import FpgaRouting.Proofs.Stamp.Build

/-!
# Proofs/Stamp/Partition — a plan divides the device

      y
      3   E  E  E  E  E         E      an edge, computed
      2   E  2  1  2  E         1, 2   in row 1 up to the period 2: the strip, computed
      1   E  1  2  1  E                elsewhere: copied from the tile of the strip
      0   E  E  E  E  E                with that column
          0  1  2  3  4   x

A tile is sorted by two tests, whether it lies on an edge and whether it belongs to the strip, and
the column it copies comes from a third formula.  The three fit together on every device that has a
plan: **every tile is computed or copied, and never twice**, and a copy is taken from a computed
tile (`computed_append_copied_perm`).
-/

namespace FpgaRouting

/-- **A grid has no tile twice.** -/
theorem Tile.nodup_grid (width height : Nat) : (grid width height).Nodup := by
  rw [grid, List.nodup_flatMap]
  constructor
  · intro x _
    exact List.nodup_range.map fun _ _ h => (mk.inj h).2
  · refine List.nodup_range.imp fun {x x'} hne t ht ht' => hne ?_
    -- A tile of two columns has the number of both.
    obtain ⟨y, -, rfl⟩ := List.mem_map.mp ht
    obtain ⟨y', -, heq⟩ := List.mem_map.mp ht'
    exact (mk.inj heq).1.symm

namespace Stamping

variable {p : Stamping} {f : Fabric} {t : Tile}

/-! ## Computed and copied tiles -/

theorem nodup_strip (p : Stamping) : p.strip.Nodup :=
  (List.nodup_range' 1).map fun _ _ h => (Tile.mk.inj h).1

namespace Fits

variable (hfits : p.Fits f)

include hfits

/-- **No tile is computed twice**: the strip lies off the edges. -/
theorem nodup_computedTiles : (p.computedTiles f).Nodup := by
  refine p.nodup_strip.append ((Tile.nodup_grid _ _).filter _) ?_
  intro t hstrip hedge
  obtain ⟨htile, honEdge⟩ := List.mem_filter.mp hedge
  have hinterior := hfits.interior_of_onStrip (mem_strip_iff.mp hstrip)
  exact absurd ((hfits.interior_iff htile).mp hinterior) (by simp [honEdge])

/-- **No tile is taken twice**, in whichever way. -/
theorem nodup_computed_append_copied : (p.computedTiles f ++ p.copiedTiles f).Nodup := by
  refine hfits.nodup_computedTiles.append ((Tile.nodup_grid _ _).filter _) ?_
  intro t hcomputed hcopied
  exact (hfits.mem_copiedTiles_iff.mp hcopied).2 hcomputed

theorem mem_computed_append_copied_iff :
    t ∈ p.computedTiles f ++ p.copiedTiles f ↔ t ∈ f.tiles := by
  rw [List.mem_append, hfits.mem_copiedTiles_iff]
  constructor
  · rintro (hcomputed | ⟨htile, -⟩)
    · exact (hfits.mem_computedTiles_iff.mp hcomputed).1
    · exact htile
  · intro htile
    exact (em _).imp_right fun hnot => ⟨htile, hnot⟩

/-- **Together they are the tiles of the device.** -/
theorem perm_tiles : (p.computedTiles f ++ p.copiedTiles f).Perm f.tiles :=
  (List.perm_ext_iff_of_nodup hfits.nodup_computed_append_copied (Tile.nodup_grid _ _)).mpr
    fun _ => hfits.mem_computed_append_copied_iff

/-- The tiles that are copied from and those that are copied lie off the edges. -/
theorem interior_of_mem_strip_append_copied (ht : t ∈ p.strip ++ p.copiedTiles f) :
    f.Interior t := by
  rcases List.mem_append.mp ht with hstrip | hcopied
  · exact hfits.interior_of_onStrip (mem_strip_iff.mp hstrip)
  · exact hfits.interior_of_mem_copiedTiles hcopied

/-! ## The reference of a tile -/

omit hfits in
/-- **A tile of the strip is its own reference.** -/
theorem reference_eq_of_mem_strip (ht : t ∈ p.strip) : p.reference t = t := by
  obtain ⟨x, hx, rfl⟩ := List.mem_map.mp ht
  obtain ⟨hone, hlt⟩ := List.mem_range'_1.mp hx
  have hcolumn : (x - 1 + (1 - 1)) % p.period = x - 1 := Nat.mod_eq_of_lt (by omega)
  rw [reference, hcolumn, Nat.add_sub_cancel' hone]

theorem column_reference_le (t : Tile) : 1 ≤ (p.reference t).x ∧ (p.reference t).x ≤ p.period := by
  have hstrip := hfits.onStrip_reference t
  simp only [onStrip, Bool.and_eq_true, decide_eq_true_eq] at hstrip
  exact ⟨hstrip.1.2, hstrip.2⟩

end Fits

/-- **A plan divides the device.**  Take an accepted device within the limit that is decided on and
gets a plan.  The tiles that the plan computes, followed by those it copies, are the tiles of the
device in another order, and no tile stands there twice.  The reference strip and the copied tiles
have channels on all sides.  For every tile off the edges the column it copies is found without a
fault: a column of the strip at the distance of the tile modulo the period, so that what is copied
has been computed.  For a tile of the strip it is the column of the tile itself. -/
theorem computed_append_copied_perm {a : Architecture} (haccept : Fabric.ofArchitecture a = .ok f)
    (hsize : Moderate a.device a.wireTypes) {d : StampDecision}
    (hdecision : StampDecision.of f = .ok d) (hplan : d.plan? = some p) :
    (p.computedTiles f ++ p.copiedTiles f).Perm f.tiles ∧
    (p.computedTiles f ++ p.copiedTiles f).Nodup ∧
    (∀ t ∈ p.strip ++ p.copiedTiles f, ∀ side, f.HasChannel t side) ∧
    (∀ t, f.Interior t → ∃ x, p.sourceColumn t = .ok x ∧ 1 ≤ x ∧ x ≤ p.period ∧
      x + 1 ≡ t.x + t.y [MOD p.period] ∧ ⟨x, 1⟩ ∈ p.computedTiles f) ∧
    ∀ t ∈ p.strip, p.sourceColumn t = .ok t.x := by
  have hregular := Fabric.regular_of_architecture haccept hsize
  have hfits := Fabric.fits_of_plan hregular hdecision hplan
  refine ⟨hfits.perm_tiles, hfits.nodup_computed_append_copied, ?_, ?_, ?_⟩
  · intro t ht side
    exact hregular.hasChannel_of_interior (hfits.interior_of_mem_strip_append_copied ht) side
  · intro t ht
    obtain ⟨hone, hle⟩ := hfits.column_reference_le t
    exact ⟨(p.reference t).x, sourceColumn_eq hregular hfits ht, hone, hle, p.reference_modEq ht,
      hfits.reference_mem_computedTiles t⟩
  · intro t ht
    have hinterior := hfits.interior_of_onStrip (Fits.mem_strip_iff.mp ht)
    rw [sourceColumn_eq hregular hfits hinterior, Fits.reference_eq_of_mem_strip ht]

set_option maxRecDepth 4000 in
/-- The small device with staggered wires: a strip of two tiles, two copies, and the edges. -/
theorem computed_append_copied_perm_staggered :
    ∃ f, Fabric.ofArchitecture Fabric.staggered = .ok f ∧
      StampDecision.of f = .ok (.stamp ⟨2, 3, 3⟩) ∧
      (computedTiles ⟨2, 3, 3⟩ f ++ copiedTiles ⟨2, 3, 3⟩ f).Perm f.tiles ∧
      copiedTiles ⟨2, 3, 3⟩ f = [⟨1, 2⟩, ⟨2, 2⟩] ∧ sourceColumn ⟨2, 3, 3⟩ ⟨2, 2⟩ = .ok 1 := by
  refine ⟨_, by cbv, by cbv, ?_, by cbv, by cbv⟩
  exact (@computed_append_copied_perm ⟨2, 3, 3⟩ _ Fabric.staggered (by cbv) (by decide) _
    (by cbv) rfl).1

end Stamping

end FpgaRouting
