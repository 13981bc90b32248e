import FpgaRouting.Build.Tiles
import FpgaRouting.Proofs.Fabric

/-!
# Proofs/Build/Periodicity — connections repeat along the taxicab distance

      y                       distance x + y, period 3
      3   0  1  2  0
      2   2  0  1  2          tiles of one number have
      1   1  2  0  1          the same connections
      0   0  1  2  0
          0  1  2  3   x

A switchblock sees a tile only through the groups of the tracks beside it, and these depend on the
distance of the tile modulo the wire length.  **Tiles at the same distance modulo a period therefore
have the same targets**, also when there are none because a step fails.
-/

namespace FpgaRouting

/-! ## One rule, seen from two tiles -/

namespace Switchblock

variable {ws : List WireType} {counts : List Nat} {d : Directionality}
  {source source' destination destination' : Channel} {track : Nat}

theorem ruleTargets_of_not_mem (s : Switchblock) (p : SidePair) (wirepoint : Nat) {wireType : Nat}
    {r : Rule} (h : wireType ∉ r.fromTypes) :
    s.ruleTargets d p source destination wireType wirepoint track r = .ok [] := by
  have hnames : r.namesSource wireType wirepoint = false := by simp [Rule.namesSource, h]
  rw [ruleTargets, hnames]
  rfl

theorem ruleTargets_of_toTypes_eq_nil (s : Switchblock) (p : SidePair) (wireType wirepoint : Nat)
    {r : Rule} (h : r.toTypes = []) :
    s.ruleTargets d p source destination wireType wirepoint track r = .ok [] := by
  rw [ruleTargets, h]
  split_ifs <;> rfl

/-- Two pairs of channels that a rule cannot tell apart.  A rule without types on one side connects
nothing, and need not be asked. -/
def AgreeOn (ws : List WireType) (counts : List Nat)
    (source source' destination destination' : Channel) (r : Rule) : Prop :=
  r.fromTypes ≠ [] → r.toTypes ≠ [] →
    Channel.Laid.Agree ws counts r.fromTypes source source'
      ∧ Channel.Laid.Agree ws counts r.toTypes destination destination'

section

variable (hsource : source.Laid ws counts d) (hsource' : source'.Laid ws counts d)
  (hdestination : destination.Laid ws counts d) (hdestination' : destination'.Laid ws counts d)

include hsource hsource' hdestination hdestination'

theorem ruleTargets_congr (s : Switchblock) (p : SidePair) {r : Rule}
    (hagree : AgreeOn ws counts source source' destination destination' r) {slot : Slot}
    (hslot : (slots (Block.sequence 0 0 ws counts))[track]? = some slot)
    {wirepoint wirepoint' : Nat} (hwirepoint : source.wirepoint track p.enter = .ok wirepoint)
    (hwirepoint' : source'.wirepoint track p.enter = .ok wirepoint') :
    s.ruleTargets d p source destination slot.block.wireType wirepoint track r
      = s.ruleTargets d p source' destination' slot.block.wireType wirepoint' track r := by
  by_cases hto : r.toTypes = []
  · rw [ruleTargets_of_toTypes_eq_nil _ _ _ _ hto, ruleTargets_of_toTypes_eq_nil _ _ _ _ hto]
  by_cases hfrom : slot.block.wireType ∈ r.fromTypes
  · obtain ⟨hagreeFrom, hagreeTo⟩ := hagree (List.ne_nil_of_mem hfrom) hto
    have hsame : source.wirepoint track p.enter = source'.wirepoint track p.enter :=
      hsource.wirepoint_congr hsource' hslot (hagreeFrom track slot hslot hfrom) p.enter
    obtain rfl : wirepoint = wirepoint' :=
      Except.ok.inj (hwirepoint.symm.trans (hsame.trans hwirepoint'))
    rw [ruleTargets, ruleTargets, hsource.candidates_congr hsource' hagreeFrom,
      hdestination.candidates_congr hdestination' hagreeTo]
  · rw [ruleTargets_of_not_mem _ _ _ hfrom, ruleTargets_of_not_mem _ _ _ hfrom]

/-- **A route is the same through channels that its rules cannot tell apart.** -/
theorem route_congr (s : Switchblock) (p : SidePair)
    (hagree : ∀ r ∈ s.rules, AgreeOn ws counts source source' destination destination' r)
    (htrack : track < source.tracks.size) :
    s.route d p source destination track = s.route d p source' destination' track := by
  obtain ⟨slot, hslot, -⟩ := hsource.exists_slot htrack
  have hwirepoint := hsource.wirepoint_eq hslot p.enter
  have hwirepoint' := hsource'.wirepoint_eq hslot p.enter
  have hrules := Outcome.mapM_congr fun r hr =>
    ruleTargets_congr hsource hsource' hdestination hdestination' s p (hagree r hr) hslot
      hwirepoint hwirepoint'
  rw [route, route, hsource.track_eq hslot, hsource'.track_eq hslot, hwirepoint, hwirepoint']
  simp only [Outcome.liftM_ok, Outcome.ok_bind]
  exact congrArg (· >>= _) hrules

end

end Switchblock

/-! ## All rules, seen from two tiles -/

namespace Fabric

variable {f : Fabric} {period : Nat} {t t' : Tile}

/-- **A side agrees with itself at another tile** on the wire types that repeat. -/
theorem Regular.agree (h : f.Regular) (hmod : t.x + t.y ≡ t'.x + t'.y [MOD period]) {side : Side}
    {c c' : Channel} (hc : f.layout.channelAt? t side = .ok (some c))
    (hc' : f.layout.channelAt? t' side = .ok (some c')) {types : List Nat}
    (hrepeats : ∀ w ∈ types, f.Repeats period w) :
    Channel.Laid.Agree f.wireTypes f.layout.counts types c c' := by
  intro i s hs hmem
  obtain ⟨hlaid, hcoord, hextent⟩ := h.laid_of_channelAt? hc
  obtain ⟨hlaid', hcoord', hextent'⟩ := h.laid_of_channelAt? hc'
  obtain ⟨hdvd, hwidth, hheight⟩ := hrepeats _ hmem _ (lengthOf_slot hs)
  have hshort : ∀ axis, s.block.length < f.device.extent axis := by
    rintro (_ | _)
    · exact hwidth
    · exact hheight
  refine hlaid.group_congr hlaid' hs (hextent ▸ hshort _) (hextent' ▸ hshort _) ?_
  rw [hcoord, hcoord', ChannelCoord.distance_beside, ChannelCoord.distance_beside]
  exact (hmod.of_dvd hdvd).add_right _

/-- **The targets in one switchblock are the same at both tiles.** -/
theorem Regular.targetsIn_congr (h : f.Regular) (hmod : t.x + t.y ≡ t'.x + t'.y [MOD period])
    {p : SidePair} (henter : f.HasChannel t p.enter ∧ f.HasChannel t' p.enter)
    (hleave : f.HasChannel t p.leave ∧ f.HasChannel t' p.leave) {s : Switchblock}
    (hrepeats : ∀ r ∈ s.rules, r.fromTypes ≠ [] → r.toTypes ≠ [] →
      ∀ w ∈ r.fromTypes ++ r.toTypes, f.Repeats period w) (track : Nat) :
    f.targetsIn ⟨t.x, t.y, p.enter, p.leave, track⟩ s
      = f.targetsIn ⟨t'.x, t'.y, p.enter, p.leave, track⟩ s := by
  obtain ⟨⟨source, hsource⟩, ⟨source', hsource'⟩⟩ := henter
  obtain ⟨⟨destination, hdestination⟩, ⟨destination', hdestination'⟩⟩ := hleave
  have hlaid := (h.laid_of_channelAt? hsource).1
  have hlaid' := (h.laid_of_channelAt? hsource').1
  have hsize : source.tracks.size = source'.tracks.size :=
    hlaid.size_tracks.trans hlaid'.size_tracks.symm
  rw [targetsIn, targetsIn]
  simp only [SidePair.of?_eq_some, Key.tile, hsource, hsource', hdestination, hdestination',
    Outcome.liftM_ok, Outcome.ok_bind, hsize]
  split_ifs with hformulas htrack
  · rfl
  · rfl
  · refine Switchblock.route_congr hlaid hlaid' (h.laid_of_channelAt? hdestination).1
      (h.laid_of_channelAt? hdestination').1 s p (fun r hr hfrom hto => ?_) (by omega)
    have hall := hrepeats r hr hfrom hto
    exact ⟨h.agree hmod hsource hsource' fun w hw => hall w (List.mem_append_left _ hw),
      h.agree hmod hdestination hdestination' fun w hw => hall w (List.mem_append_right _ hw)⟩

/-- **Connections repeat along the taxicab distance.**  On an accepted device within the limit, let
every wire type that a rule names be shorter than the device both ways, and its length divide
`period`.  Two tiles whose distances agree modulo `period`, and which have the channels of both
sides, have the same targets for every track, or fail in the same way. -/
theorem targets_eq_of_modEq {a : Architecture} (haccept : ofArchitecture a = .ok f)
    (hsize : Moderate a.device a.wireTypes) (hperiod : ∀ w ∈ f.namedTypes, f.Repeats period w)
    (hmod : t.x + t.y ≡ t'.x + t'.y [MOD period]) {p : SidePair}
    (henter : f.HasChannel t p.enter ∧ f.HasChannel t' p.enter)
    (hleave : f.HasChannel t p.leave ∧ f.HasChannel t' p.leave) (track : Nat) :
    f.targets ⟨t.x, t.y, p.enter, p.leave, track⟩
      = f.targets ⟨t'.x, t'.y, p.enter, p.leave, track⟩ := by
  have hregular := regular_of_architecture haccept hsize
  refine Outcome.foldlM_congr (fun s hs ts => ?_) []
  rw [hregular.targetsIn_congr hmod henter hleave fun r hr _ _ w hw => hperiod w
    (List.mem_flatMap.mpr ⟨r, List.mem_flatMap.mpr ⟨s, hs, hr⟩, hw⟩)]

/-- A small device with wires of the lengths `1` and `2`, whose long wires are entered at their
first wirepoint. -/
def staggered : Architecture where
  device := ⟨3, 3, 2⟩
  directionality := .bidirectional
  wireTypes := [⟨"short", 1, 1⟩, ⟨"long", 2, 1⟩]
  switchblocks := [{
    name := "straight"
    directionality := .bidirectional
    switchName := "mux"
    rules := [⟨["short", "long"], ["long"], none, some [0], none⟩]
    permutations := (∅ : Permutations).insert ⟨.bottom, .top, by decide⟩ ["t + 1"] }]

set_option maxRecDepth 4000 in
/-- A tile on the edge of it and one inside. -/
theorem targets_eq_of_modEq_staggered : ∃ f, ofArchitecture staggered = .ok f ∧
    f.targets ⟨0, 1, .bottom, .top, 0⟩ = f.targets ⟨2, 1, .bottom, .top, 0⟩ ∧
    f.targets ⟨2, 1, .bottom, .top, 0⟩ = .ok [⟨1, "mux"⟩] := by
  refine ⟨_, by cbv, ?_, by cbv⟩
  exact @targets_eq_of_modEq _ 2 ⟨0, 1⟩ ⟨2, 1⟩ staggered (by cbv) (by decide) (by decide)
    (show 0 + 1 ≡ 2 + 1 [MOD 2] by decide) ⟨.bottom, .top, by decide⟩
    ⟨⟨_, by cbv⟩, ⟨_, by cbv⟩⟩ ⟨⟨_, by cbv⟩, ⟨_, by cbv⟩⟩ 0

end Fabric

end FpgaRouting
