import FpgaRouting.Proofs.Build.Periodicity
import FpgaRouting.Proofs.Build.Tiles
import FpgaRouting.Stamp.Build

/-!
# Proofs/Stamp/Copies — a copied tile is a computed one

      y
      3   3  1  2  3        period 3; the number is the column of the reference
      2   2  3  1  2        tile in row 1, so the tile at (3, 2) copies the one
      1   1  2  3  1        at (1, 1)
          1  2  3  4   x

**Off the edges a tile adds what its reference tile adds**, only under its own keys, and fails where
that fails (`tileAdditions_movedTo`).  The reference tiles of a plan that fits are among those it
computes, so a copy leads a key to what its own tile would have added.
-/

namespace FpgaRouting

/-- An addition at another tile. -/
def additionAt (t : Tile) (e : Key × Target) : Key × Target := (e.1.movedTo t, e.2)

theorem Key.movedTo_eq_iff {k l : Key} {t t' : Tile} (hk : k.tile = t) (hl : l.tile = t') :
    k.movedTo t' = l ↔ k = l.movedTo t := by
  subst hk hl
  obtain ⟨x, y, enter, leave, track⟩ := k
  obtain ⟨x', y', enter', leave', track'⟩ := l
  simp [movedTo, tile]

namespace Fabric

variable {f : Fabric} {period : Nat} {t t' : Tile}

theorem keysAt_movedTo (t t' : Tile) : (f.keysAt t).map (·.movedTo t') = f.keysAt t' := by
  simp only [keysAt, List.map_flatMap, List.map_map]
  rfl

theorem connectionAdditions_movedTo (k : Key) (t : Target) (t' : Tile) :
    f.connectionAdditions (k.movedTo t') t = (f.connectionAdditions k t).map (additionAt t') := by
  rw [connectionAdditions, connectionAdditions]
  cases f.directionality <;> rfl

/-- Every rule that connects anything connects wire types that repeat with a period. -/
def ConnectedRepeat (f : Fabric) (period : Nat) : Prop :=
  ∀ s ∈ f.switchblocks, ∀ r ∈ s.rules, r.fromTypes ≠ [] → r.toTypes ≠ [] →
    ∀ w ∈ r.fromTypes ++ r.toTypes, f.Repeats period w

section

variable (h : f.Regular) (hrepeat : f.ConnectedRepeat period) (ht : f.Interior t)
  (ht' : f.Interior t') (hmod : t.x + t.y ≡ t'.x + t'.y [MOD period])

include h hrepeat ht ht' hmod

theorem keyAdditions_movedTo {s : Switchblock} (hs : s ∈ f.switchblocks) {k : Key}
    (hk : k ∈ f.keysAt t) :
    f.keyAdditions s (k.movedTo t') = List.map (additionAt t') <$> f.keyAdditions s k := by
  obtain ⟨track, -, hk⟩ := List.mem_flatMap.mp hk
  obtain ⟨p, -, rfl⟩ := List.mem_map.mp hk
  have htargets := h.targetsIn_congr hmod
    ⟨h.hasChannel_of_interior ht p.enter, h.hasChannel_of_interior ht' p.enter⟩
    ⟨h.hasChannel_of_interior ht p.leave, h.hasChannel_of_interior ht' p.leave⟩
    (hrepeat s hs) track
  rw [keyAdditions, keyAdditions, Key.movedTo, ← htargets, Functor.map_map]
  refine congrArg (· <$> _) (funext fun ts => ?_)
  rw [List.map_flatMap]
  exact List.flatMap_congr fun target _ => connectionAdditions_movedTo _ target t'

theorem switchblockAdditions_movedTo {s : Switchblock} (hs : s ∈ f.switchblocks) :
    f.switchblockAdditions t' s = List.map (additionAt t') <$> f.switchblockAdditions t s := by
  rw [switchblockAdditions, ← keysAt_movedTo t t', List.mapM_map]
  exact Outcome.flatten_mapM_map fun k hk =>
    keyAdditions_movedTo h hrepeat ht ht' hmod hs hk

/-- **Off the edges tiles at the same distance add the same**, each under its own keys. -/
theorem tileAdditions_movedTo :
    f.tileAdditions t' = List.map (additionAt t') <$> f.tileAdditions t :=
  Outcome.flatten_mapM_map fun _ hs => switchblockAdditions_movedTo h hrepeat ht ht' hmod hs

theorem computes_iff : f.Computes t' ↔ f.Computes t := by
  rw [Computes, Computes, tileAdditions_movedTo h hrepeat ht ht' hmod]
  cases f.tileAdditions t <;> simp [Functor.map, Except.map]

theorem addedTo_movedTo {k : Key} (hk : k.tile = t') : f.addedTo k = f.addedTo (k.movedTo t) := by
  have htile : (k.movedTo t).tile = t := rfl
  rw [addedTo, addedTo, hk, htile, tileAdditions_movedTo h hrepeat ht ht' hmod]
  cases hes : f.tileAdditions t with
  | error e => rfl
  | ok es =>
    change ((es.map (additionAt t')).filter (·.1 = k)).map (·.2) = _
    rw [List.filter_map, List.map_map]
    have hfilter : es.filter ((·.1 = k) ∘ additionAt t') = es.filter (·.1 = k.movedTo t) := by
      refine List.filter_congr fun e he => ?_
      have hiff := Key.movedTo_eq_iff (tile_of_mem_tileAdditions hes he) hk
      exact decide_eq_decide.mpr hiff
    rw [hfilter]
    rfl

end

end Fabric

/-! ## The tiles of a plan -/

namespace Stamping

/-- The tile of the reference strip that a tile copies. -/
def reference (p : Stamping) (t : Tile) : Tile := ⟨1 + (t.x - 1 + (t.y - 1)) % p.period, 1⟩

/-- A plan that fits a fabric: the strip lies off the edges, and what is connected repeats along
it. -/
structure Fits (p : Stamping) (f : Fabric) : Prop where
  width_eq : p.width = f.device.width
  height_eq : p.height = f.device.height
  period_pos : 0 < p.period
  period_lt : p.period < f.device.width
  two_le_height : 2 ≤ f.device.height
  repeats : f.ConnectedRepeat p.period

namespace Fits

variable {p : Stamping} {f : Fabric} {t : Tile}

theorem interior_iff (h : p.Fits f) (ht : t ∈ f.tiles) : f.Interior t ↔ p.onEdge t = false := by
  obtain ⟨hx, hy⟩ := Tile.mem_grid.mp ht
  simp only [Fabric.Interior, onEdge, h.width_eq, h.height_eq, Bool.or_eq_false_iff,
    decide_eq_false_iff_not]
  omega

theorem mem_tiles (ht : f.Interior t) : t ∈ f.tiles :=
  Tile.mem_grid.mpr ⟨ht.2.1.le, ht.2.2.2.le⟩

theorem mem_strip_iff : t ∈ p.strip ↔ p.onStrip t = true := by
  obtain ⟨x, y⟩ := t
  simp only [strip, onStrip, List.mem_map, List.mem_range'_1, Tile.mk.injEq, Bool.and_eq_true,
    decide_eq_true_eq]
  constructor
  · rintro ⟨x', hx', rfl, rfl⟩
    omega
  · rintro ⟨⟨rfl, hx⟩, hx'⟩
    exact ⟨x, by omega, rfl, rfl⟩

theorem interior_of_onStrip (h : p.Fits f) (ht : p.onStrip t = true) : f.Interior t := by
  have hlt := h.period_lt
  have htwo := h.two_le_height
  simp only [onStrip, Bool.and_eq_true, decide_eq_true_eq] at ht
  exact ⟨by omega, by omega, by omega, by omega⟩

theorem mem_computedTiles_iff (h : p.Fits f) :
    t ∈ p.computedTiles f ↔ t ∈ f.tiles ∧ (p.onStrip t = true ∨ p.onEdge t = true) := by
  rw [computedTiles, List.mem_append, mem_strip_iff, List.mem_filter]
  constructor
  · rintro (hstrip | ⟨ht, hedge⟩)
    · exact ⟨mem_tiles (h.interior_of_onStrip hstrip), .inl hstrip⟩
    · exact ⟨ht, .inr hedge⟩
  · rintro ⟨ht, hstrip | hedge⟩
    · exact .inl hstrip
    · exact .inr ⟨ht, hedge⟩

/-- **The tiles that are not computed are copied.** -/
theorem mem_copiedTiles_iff (h : p.Fits f) :
    t ∈ p.copiedTiles f ↔ t ∈ f.tiles ∧ t ∉ p.computedTiles f := by
  rw [copiedTiles, List.mem_filter, h.mem_computedTiles_iff]
  cases p.onEdge t <;> cases p.onStrip t <;> simp

theorem interior_of_mem_copiedTiles (h : p.Fits f) (ht : t ∈ p.copiedTiles f) :
    f.Interior t := by
  obtain ⟨htile, hcopied⟩ := List.mem_filter.mp ht
  refine (h.interior_iff htile).mpr ?_
  simp only [Bool.and_eq_true, Bool.not_eq_true'] at hcopied
  exact hcopied.1

theorem onStrip_reference (h : p.Fits f) (t : Tile) : p.onStrip (p.reference t) = true := by
  have hlt : (t.x - 1 + (t.y - 1)) % p.period < p.period := Nat.mod_lt _ h.period_pos
  exact mem_strip_iff.mp (List.mem_map.mpr ⟨_, List.mem_range'_1.mpr ⟨by omega, by omega⟩, rfl⟩)

theorem interior_reference (h : p.Fits f) (t : Tile) : f.Interior (p.reference t) :=
  h.interior_of_onStrip (h.onStrip_reference t)

theorem reference_mem_computedTiles (h : p.Fits f) (t : Tile) :
    p.reference t ∈ p.computedTiles f :=
  h.mem_computedTiles_iff.mpr ⟨mem_tiles (h.interior_reference t), .inl (h.onStrip_reference t)⟩

end Fits

/-- **A reference tile has the distance of the tile**, modulo the period. -/
theorem reference_modEq (p : Stamping) {f : Fabric} {t : Tile} (ht : f.Interior t) :
    (p.reference t).x + (p.reference t).y ≡ t.x + t.y [MOD p.period] := by
  obtain ⟨hx, -, hy, -⟩ := ht
  have hsum : t.x + t.y = 1 + (t.x - 1 + (t.y - 1)) + 1 := by omega
  rw [hsum]
  exact ((Nat.mod_modEq _ _).add_left 1).add_right 1

/-! ## Copying -/

section

variable {p : Stamping} {f : Fabric} {t : Tile} (hregular : f.Regular) (hfits : p.Fits f)

include hregular hfits

theorem sourceColumn_eq (ht : f.Interior t) : p.sourceColumn t = .ok (p.reference t).x := by
  obtain ⟨hx, hx', hy, hy'⟩ := ht
  have hwidth := hregular.moderate.width_le
  have hheight := hregular.moderate.height_le
  have hperiod := hfits.period_lt
  have hlt : (t.x - 1 + (t.y - 1)) % p.period < p.period := Nat.mod_lt _ hfits.period_pos
  simp only [sizeLimit] at hwidth hheight
  have hdistance : t.x - 1 + (t.y - 1) < Word.count := by simp only [Word.count]; omega
  have hcolumn : 1 + (t.x - 1 + (t.y - 1)) % p.period < Word.count := by
    simp only [Word.count]; omega
  rw [sourceColumn, Word.sub_of_le hx, Outcome.ok_bind, Word.sub_of_le hy, Outcome.ok_bind,
    Word.add, Word.check_of_lt hdistance, Outcome.ok_bind,
    Word.mod_of_ne_zero hfits.period_pos.ne', Outcome.ok_bind, Word.add,
    Word.check_of_lt hcolumn]
  rfl

theorem copyTile_eq (ht : f.Interior t) (source m : Connections) :
    p.copyTile source m t
      = .ok ((source.atTile (p.reference t)).foldl
          (fun m e => m.addAll (e.1.movedTo t) e.2) m) := by
  rw [copyTile, sourceColumn_eq hregular hfits ht]
  rfl

/-- **A copy leads a key to the targets of its key at the reference tile.** -/
theorem targetsOf_copyTile (ht : f.Interior t) {source m m' : Connections}
    (hcopy : p.copyTile source m t = .ok m') (k : Key) :
    m'.targetsOf k
      = if k.tile = t
        then (source.targetsOf (k.movedTo (p.reference k.tile))).foldl addOnce (m.targetsOf k)
        else m.targetsOf k := by
  rw [copyTile_eq hregular hfits ht] at hcopy
  obtain rfl := Except.ok.inj hcopy
  rw [Connections.targetsOf_foldl_addAll (·.movedTo t), Connections.atTile, List.filter_filter]
  split_ifs with htile
  · have hfilter : (source.toList.filter fun e =>
        decide (e.1.movedTo t = k) && decide (e.1.tile = p.reference t))
        = source.toList.filter (·.1 = k.movedTo (p.reference t)) := by
      refine List.filter_congr fun e _ => ?_
      rw [← Bool.decide_and, decide_eq_decide]
      constructor
      · rintro ⟨hmoved, hsource⟩
        exact (Key.movedTo_eq_iff hsource htile).mp hmoved
      · intro heq
        have hsource : e.1.tile = p.reference t := by rw [heq]; rfl
        exact ⟨(Key.movedTo_eq_iff hsource htile).mpr heq, hsource⟩
    rw [htile, hfilter, Connections.targetsOf_toList]
  · have hnone : (source.toList.filter fun e =>
        decide (e.1.movedTo t = k) && decide (e.1.tile = p.reference t)) = [] := by
      refine List.filter_eq_nil_iff.mpr fun e _ hmoved => htile ?_
      simp only [Bool.and_eq_true, decide_eq_true_eq] at hmoved
      rw [← hmoved.1]
      rfl
    rw [hnone]
    rfl

/-- **Every tile that is to be copied can be.** -/
theorem exists_copyTiles {ts : List Tile} (hts : ∀ t ∈ ts, f.Interior t)
    (source m : Connections) : ∃ m', p.copyTiles source ts m = .ok m' := by
  rw [copyTiles]
  induction ts generalizing m with
  | nil => exact ⟨m, rfl⟩
  | cons t ts ih =>
    rw [List.foldlM_cons, copyTile_eq hregular hfits (hts t List.mem_cons_self)]
    exact ih (fun u hu => hts u (List.mem_cons_of_mem _ hu)) _

/-- **A key at a listed tile gains the targets of its key at the reference tile**, and no other key
changes. -/
theorem targetsOf_copyTiles {ts : List Tile} (hts : ∀ t ∈ ts, f.Interior t)
    {source m m' : Connections} (hcopy : p.copyTiles source ts m = .ok m') (k : Key) :
    m'.targetsOf k
      = if k.tile ∈ ts
        then (source.targetsOf (k.movedTo (p.reference k.tile))).foldl addOnce (m.targetsOf k)
        else m.targetsOf k :=
  Connections.targetsOf_foldlM
    (fun t ht _ _ hm' => targetsOf_copyTile hregular hfits (hts t ht) hm') hcopy k

end

end Stamping

end FpgaRouting
