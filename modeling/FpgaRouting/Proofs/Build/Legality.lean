import FpgaRouting.Proofs.Build.Closure
import FpgaRouting.Proofs.Build.Parallel
import FpgaRouting.Proofs.Stamp.Build

/-!
# Proofs/Build/Legality — every connection that is stored is legal

      rule      from part ──── switch ────▸ to part
                   │ admits                   │ admits
      tile      track k ────────────────▸ track u

A connection is *legal* if some rule admits both of its ends: the track of the key as a source, the
target as a destination, each by its wire type, its wirepoint and its heading.  A map has its
entries from a tile computed, from a reverse, from the part of some worker, or from another tile by
copying.  **However it was built, each of them is legal where it stands**, or on a bidirectional
device its reverse is (`legal_of_builds`).
-/

namespace FpgaRouting

namespace Switchblock

variable {ws : List WireType} {counts : List Nat} {d : Directionality}
  {source destination : Channel} {track : Nat} {s : Switchblock} {p : SidePair} {u : Target}

/-- A formula selects a destination, and names the switch of its rule. -/
theorem mem_of_contribution {destinations : List Nat} {t : Nat} {switchName : String} {g : Formula}
    (hne : destinations ≠ []) (h : s.contribution p destinations t switchName g = .ok u) :
    u.track ∈ destinations ∧ switchName = u.switchName := by
  rw [contribution] at h
  split at h
  · simp [Outcome.refuse] at h
  · next value _ =>
    obtain rfl := Except.ok.inj h
    have hindex := toNat_emod_lt (List.length_pos_of_ne_nil hne) value
    refine ⟨?_, rfl⟩
    rw [List.getD_eq_getElem _ _ hindex]
    exact List.getElem_mem hindex

/-- **A rule that contributes admits both ends.** -/
theorem admits_of_mem_ruleContributions (hsource : source.Laid ws counts d)
    (hdestination : destination.Laid ws counts d) {r : Rule}
    (h : Except.ok u ∈ s.ruleContributions d p source destination track r) :
    s.formulas p ≠ [] ∧ r.switchName = u.switchName ∧
      source.admits p.enter r.fromTypes r.fromPoints (p.enter.sourceHeading d) track = true ∧
      destination.admits p.leave r.toTypes r.toPoints (p.leave.destinationHeading d) u.track
        = true := by
  rw [ruleContributions] at h
  split at h
  · simp at h
  · next t ht =>
    split_ifs at h with hnil
    · simp at h
    obtain ⟨g, hg, hu⟩ := List.mem_map.mp h
    obtain ⟨hmem, hname⟩ := mem_of_contribution hnil hu
    obtain ⟨hlt, heq, -⟩ := List.idxOf?_eq_some_iff.mp ht
    have htrack := List.getElem_mem hlt
    rw [heq] at htrack
    exact ⟨List.ne_nil_of_mem hg, hname, hsource.mem_admitted_iff.mp htrack,
      hdestination.mem_admitted_iff.mp hmem⟩

end Switchblock

namespace Fabric

variable {f : Fabric} {k : Key} {u : Target} {m : Connections}

/-! ## Legal connections -/

/-- **A legal connection**: between its sides' channels, a switchblock with formulas for the sides
has a rule of the switch that admits the track of the key and the target. -/
def Legal (f : Fabric) (k : Key) (u : Target) : Prop :=
  ∃ (p : SidePair) (source destination : Channel), p.enter = k.enter ∧ p.leave = k.leave ∧
    f.layout.channelAt? k.tile k.enter = .ok (some source) ∧
    f.layout.channelAt? k.tile k.leave = .ok (some destination) ∧
    ∃ s ∈ f.switchblocks, s.formulas p ≠ [] ∧ ∃ r ∈ s.rules, r.switchName = u.switchName ∧
      source.admits k.enter r.fromTypes r.fromPoints (k.enter.sourceHeading f.directionality)
        k.track = true ∧
      destination.admits k.leave r.toTypes r.toPoints (k.leave.destinationHeading f.directionality)
        u.track = true

namespace Regular

variable (h : f.Regular)

include h

/-- **A key has legal targets only.** -/
theorem legal_of_connects (hx : k.x < 2 ^ 64 - 1) (hy : k.y < 2 ^ 64 - 1)
    (hconnects : f.Connects k u) : f.Legal k u := by
  obtain ⟨hsides, ⟨source, hsource⟩, ⟨destination, hdestination⟩, htrack⟩ :=
    h.leads_of_connects hx hy hconnects
  obtain ⟨ts, hts, hu⟩ := hconnects
  rw [h.targets_eq (p := ⟨k.enter, k.leave, hsides⟩) rfl rfl hsource hdestination htrack] at hts
  obtain ⟨us, hus, rfl⟩ := Outcome.map_eq_ok_iff.mp hts
  obtain ⟨o, ho, rfl⟩ := Outcome.exists_of_mem_mapM hus (List.mem_eraseDups.mp hu)
  obtain ⟨s, hs, ho⟩ := List.mem_flatMap.mp ho
  obtain ⟨r, hr, ho⟩ := List.mem_flatMap.mp ho
  obtain ⟨hformulas, hname, hadmits⟩ := Switchblock.admits_of_mem_ruleContributions
    (h.laid_of_channelAt? hsource).1 (h.laid_of_channelAt? hdestination).1 ho
  exact ⟨_, source, destination, rfl, rfl, hsource, hdestination, s, hs, hformulas, r, hr, hname,
    hadmits⟩

/-- **A legal connection is one of the device**: between distinct sides of a tile that has both
channels, and between tracks of the device. -/
theorem bounds_of_legal (hlegal : f.Legal k u) :
    k.enter ≠ k.leave ∧ (f.HasChannel k.tile k.enter ∧ f.HasChannel k.tile k.leave) ∧
      k.tile ∈ f.tiles ∧ k.track < f.device.channelWidth ∧ u.track < f.device.channelWidth := by
  obtain ⟨p, source, destination, henter, hleave, hsource, hdestination, s, -, -, r, -, -,
    hadmitsSource, hadmitsDestination⟩ := hlegal
  refine ⟨henter ▸ hleave ▸ p.enter_ne_leave, ⟨⟨source, hsource⟩, destination, hdestination⟩,
    h.mem_tiles_of_hasChannel ⟨source, hsource⟩, ?_, ?_⟩
  · rw [← h.size_tracks_eq hsource]
    exact (h.laid_of_channelAt? hsource).1.lt_of_admits hadmitsSource
  · rw [← h.size_tracks_eq hdestination]
    exact (h.laid_of_channelAt? hdestination).1.lt_of_admits hadmitsDestination

end Regular

/-! ## What builds return -/

/-- **Whether a map is what some build returns**: the stamped one or the computed one, either on
some workers, or a build over some tiles. -/
inductive Builds (f : Fabric) (m : Connections) : Prop
  | stamped (h : f.connections = .ok m)
  | computed (h : f.computedConnections = .ok m)
  | parallel {workers : Nat} {stamp : Bool} (h : f.parallelConnections workers stamp = .ok m)
  | someTiles {ts : List Tile} (hts : ∀ t ∈ ts, t.x < 2 ^ 64 - 1 ∧ t.y < 2 ^ 64 - 1)
      (h : f.connectionsOver ts = .ok m)

namespace Regular

variable (h : f.Regular)

include h

/-- **Every build returns the computed connections of some tiles.** -/
theorem exists_connectionsOver_of_builds (hbuilds : f.Builds m) :
    ∃ ts, (∀ t ∈ ts, t.x < 2 ^ 64 - 1 ∧ t.y < 2 ^ 64 - 1) ∧ f.connectionsOver ts = .ok m := by
  have hall : ∀ t ∈ f.tiles, t.x < 2 ^ 64 - 1 ∧ t.y < 2 ^ 64 - 1 := fun t ht =>
    h.lt_of_mem_tiles ht
  have hstamped : f.connections = .ok m → f.connectionsOver f.tiles = .ok m := fun hm =>
    computedConnections_of_connections h hm
  cases hbuilds with
  | stamped hm => exact ⟨f.tiles, hall, hstamped hm⟩
  | computed hm => exact ⟨f.tiles, hall, hm⟩
  | someTiles hts hm => exact ⟨_, hts, hm⟩
  | @parallel workers stamp hm =>
    rw [parallelConnections_eq_build] at hm
    refine ⟨f.tiles, hall, ?_⟩
    split_ifs at hm
    · exact hstamped hm
    · exact hm

end Regular

/-- **Every stored connection is legal.**  On an accepted device within the limit, take any
connection of a map that a build returns.  Its sides are distinct, its tile has the channels of
both and is in the device, its tracks are below the channel width; and a rule admits both of its
ends, or on a bidirectional device those of its reverse. -/
theorem legal_of_builds {a : Architecture} (haccept : ofArchitecture a = .ok f)
    (hsize : Moderate a.device a.wireTypes) (hbuilds : f.Builds m) (hhas : m.Has k u) :
    k.enter ≠ k.leave ∧ (f.HasChannel k.tile k.enter ∧ f.HasChannel k.tile k.leave) ∧
    k.tile ∈ f.tiles ∧ k.track < f.device.channelWidth ∧ u.track < f.device.channelWidth ∧
    (f.Legal k u ∨
      f.directionality = .bidirectional ∧ f.Legal (k.reverse u) ⟨k.track, u.switchName⟩) := by
  have hregular := regular_of_architecture haccept hsize
  obtain ⟨ts, hts, hm⟩ := hregular.exists_connectionsOver_of_builds hbuilds
  obtain ⟨htile, l, hl, w, hconnects, hadd⟩ := (has_connectionsOver_iff hm).mp hhas
  have hlegal : f.Legal l w := by
    have hlt := hts _ htile
    rw [← (tile_of_mem_keysAt hl)] at hlt
    exact hregular.legal_of_connects hlt.1 hlt.2 hconnects
  have hbounds := hregular.bounds_of_legal hlegal
  rcases eq_or_reverse_of_mem_connectionAdditions hadd with ⟨rfl, rfl⟩ | ⟨hheading, rfl, rfl⟩
  · obtain ⟨hsides, hchannels, hmem, htrack, htarget⟩ := hbounds
    exact ⟨hsides, hchannels, hmem, htrack, htarget, .inl hlegal⟩
  · -- The reverse has the sides and the tracks the other way round.
    obtain ⟨hsides, ⟨henter, hleave⟩, hmem, htrack, htarget⟩ := hbounds
    exact ⟨hsides.symm, ⟨hleave, henter⟩, hmem, htarget, htrack, .inr ⟨hheading, hlegal⟩⟩

set_option maxRecDepth 4000 in
/-- A copied tile of the small bidirectional device.  No formula is given for the side pair of the
connection, but its reverse is legal. -/
theorem legal_of_builds_staggered : ∃ f m, ofArchitecture staggered = .ok f ∧
    f.connections = .ok m ∧ m.Has ⟨1, 2, .top, .bottom, 1⟩ ⟨0, "mux"⟩ ∧
    (f.Legal ⟨1, 2, .top, .bottom, 1⟩ ⟨0, "mux"⟩ ∨
      f.directionality = .bidirectional ∧ f.Legal ⟨1, 2, .bottom, .top, 0⟩ ⟨1, "mux"⟩) := by
  refine ⟨_, _, by cbv, by cbv, by decide, ?_⟩
  exact (@legal_of_builds _ ⟨1, 2, .top, .bottom, 1⟩ ⟨0, "mux"⟩ _ staggered (by cbv) (by decide)
    (.stamped (by cbv)) (by decide)).2.2.2.2.2

end Fabric

end FpgaRouting
