import FpgaRouting.Proofs.Build.Failures
import FpgaRouting.Proofs.Channel.Alignment
import FpgaRouting.Proofs.Channel.Wirepoints

/-!
# Proofs/Build/Identity — identity permutations keep the physical wire

      entering   S    0   2   6   ...      the track 2 is at t = 1
      leaving    D    1   3   7   ...      D[t] is the track 3 of the same wire

A formula `t` selects the destination at the position that the source has among the sources.  It
stays on the wire if both lists go through the same wires, and so they do: **every side of a tile
observes a wire that does not reach across the device at one wirepoint**, and a rule that names the
same types and points at both ends then joins each source to its twin (`keepsWire_of_identity`).
-/

namespace FpgaRouting

/-! ## Staying on a wire -/

/-- The side across the switchblock. -/
def Side.opposite : Side → Side
  | .top => .bottom
  | .right => .left
  | .bottom => .top
  | .left => .right

/-- **Whether a connection stays on the wire of its source track.**  On a unidirectional wire the
target is the track that is driven away from the switchblock; straight on, that is the source
itself. -/
structure KeepsWire (d : Directionality) (p : SidePair) (track target : Nat) : Prop where
  wire : target / d.tracksPerWire = track / d.tracksPerWire
  bidirectional : d = .bidirectional → target = track
  unidirectional : d = .unidirectional →
    (target % 2 = 0 ↔ p.leave.destinationHeading d = .increasing)
  straight : p.leave = p.enter.opposite → target = track

/-- **A source is driven straight on by the track that it is.** -/
theorem Side.destinationHeading_opposite (side : Side) (d : Directionality) :
    side.opposite.destinationHeading d = side.sourceHeading d := by
  cases d <;> cases side <;> rfl

theorem keepsWire_twin {d : Directionality} {p : SidePair} {track : Nat}
    (h : d.heading track = p.enter.sourceHeading d) :
    KeepsWire d p track (d.twin (p.leave.destinationHeading d) track) where
  wire := d.twin_div _ _
  bidirectional := by
    rintro rfl
    rfl
  unidirectional := by
    rintro rfl
    rw [Directionality.twin]
    by_cases hincreasing : p.leave.destinationHeading .unidirectional = .increasing
    · exact iff_of_true (by rw [if_pos hincreasing]; omega) hincreasing
    · exact iff_of_false (by rw [if_neg hincreasing]; omega) hincreasing
  straight hopposite := by
    rw [hopposite, Side.destinationHeading_opposite]
    exact (Directionality.eq_twin rfl h).symm

/-! ## Identity architectures -/

/-- Whether a rule has equal sets of types and of wirepoints at both ends. -/
def RuleRecord.SameEnds (r : RuleRecord) : Prop :=
  r.fromTypes.toFinset = r.toTypes.toFinset ∧
    r.fromPoints.map List.toFinset = r.toPoints.map List.toFinset

instance (r : RuleRecord) : Decidable r.SameEnds := inferInstanceAs (Decidable (_ ∧ _))

/-- **An architecture of identity permutations**: no wire reaches across the device, every rule has
the same ends, and every formula is the variable `t`. -/
structure Architecture.Identity (a : Architecture) : Prop where
  short : ∀ w ∈ a.wireTypes, w.length < a.device.width ∧ w.length < a.device.height
  sameEnds : ∀ s ∈ a.switchblocks, ∀ r ∈ s.rules, r.SameEnds
  compile_eq : ∀ s ∈ a.switchblocks, ∀ p, ∀ text ∈ s.formulas p,
    Formula.compile text = .ok [.push .track]

/-- Whether a resolved rule allows the same types and wirepoints at both ends. -/
structure Rule.SameEnds (r : Rule) : Prop where
  types : ∀ w, w ∈ r.fromTypes ↔ w ∈ r.toTypes
  points : ∀ n, (∀ ps ∈ r.fromPoints, n ∈ ps) ↔ ∀ ps ∈ r.toPoints, n ∈ ps

theorem SwitchblockRecord.sameEnds_of_rule {s : SwitchblockRecord} {ws : List WireType}
    {record : RuleRecord} {r : Rule} (h : s.rule ws record = .ok r) (hends : record.SameEnds) :
    r.SameEnds := by
  obtain ⟨fromTypes, hfrom, h⟩ := Outcome.bind_eq_ok_iff.mp h
  obtain ⟨toTypes, hto, h⟩ := Outcome.bind_eq_ok_iff.mp h
  obtain rfl := Except.ok.inj h
  obtain ⟨htypes, hpoints⟩ := hends
  refine ⟨fun w => ?_, fun n => ?_⟩
  · have hnames : ∀ name, name ∈ record.fromTypes ↔ name ∈ record.toTypes := fun name => by
      rw [← List.mem_toFinset, htypes, List.mem_toFinset]
    rw [Outcome.mem_mapM_iff hfrom, Outcome.mem_mapM_iff hto]
    simp only [hnames]
  · change (∀ ps ∈ record.fromPoints, n ∈ ps) ↔ ∀ ps ∈ record.toPoints, n ∈ ps
    rcases hfrom : record.fromPoints with _ | ps <;> rcases hto : record.toPoints with _ | qs
    · rfl
    · simp [hfrom, hto] at hpoints
    · simp [hfrom, hto] at hpoints
    · have hsets : ps.toFinset = qs.toFinset := by simpa [hfrom, hto] using hpoints
      simp [← List.mem_toFinset, hsets]

namespace Formula

/-- **The variable `t` has the position of the source as its value.** -/
theorem eval_of_program_eq {g : Formula} (h : g.program = [.push .track]) (b : Binding) :
    g.eval b = .ok b.track := by
  rw [eval, h]
  rfl

theorem program_of_parse {text : String} {g : Formula} {program : List Step}
    (h : parse text = .ok g) (hcompile : compile text = .ok program) : g.program = program := by
  rw [parse, hcompile] at h
  obtain rfl := Except.ok.inj h
  rfl

end Formula

namespace Fabric

variable {a : Architecture} {f : Fabric} {k : Key} {u : Target}

/-- A fabric of identity permutations. -/
structure Identity (f : Fabric) : Prop where
  short : ∀ w ∈ f.wireTypes, w.length < f.device.width ∧ w.length < f.device.height
  sameEnds : ∀ s ∈ f.switchblocks, ∀ r ∈ s.rules, r.SameEnds
  program_eq : ∀ s ∈ f.switchblocks, ∀ p, ∀ g ∈ s.formulas p, g.program = [.push .track]

theorem identity_of_architecture (haccept : ofArchitecture a = .ok f) (h : a.Identity) :
    f.Identity := by
  obtain ⟨-, -, -, hdevice, -, hwireTypes⟩ := ofArchitecture_eq_ok haccept
  refine ⟨hdevice ▸ hwireTypes ▸ h.short, fun s hs r hr => ?_, fun s hs p g hg => ?_⟩
  · obtain ⟨record, hrecord, hresolve⟩ := exists_record_of_mem haccept hs
    obtain ⟨rule, hrule, hrule'⟩ := record.exists_rule_of_resolve hresolve r hr
    exact record.sameEnds_of_rule hrule' (h.sameEnds record hrecord rule hrule)
  · obtain ⟨record, hrecord, hresolve⟩ := exists_record_of_mem haccept hs
    obtain ⟨-, hformulas⟩ := record.exists_text_of_resolve hresolve
    obtain ⟨text, htext, hparse⟩ := hformulas p g hg
    exact Formula.program_of_parse hparse (h.compile_eq record hrecord p text htext)

/-! ## Every side of a tile observes the same wirepoints -/

theorem Regular.seen_eq (h : f.Regular)
    (hshort : ∀ w ∈ f.wireTypes, w.length < f.device.width ∧ w.length < f.device.height) {t : Tile}
    {side : Side} {c : Channel} (hc : f.layout.channelAt? t side = .ok (some c)) {i : Nat}
    {s : Slot} (hs : (slots (f.layout.blocks f.wireTypes))[i]? = some s) :
    c.seen f.directionality side s
      = (t.x + t.y + 1 + s.rel / f.directionality.tracksPerWire) % s.block.length := by
  obtain ⟨hlaid, hcoord, hextent⟩ := h.laid_of_channelAt? hc
  obtain ⟨-, w, hw, hlength⟩ := Block.getElem?_of_mem (getElem?_slots_iff.mp hs).1
  obtain ⟨hwidth, hheight⟩ := hshort w (List.mem_of_getElem? hw)
  refine hlaid.seen_beside hs hcoord ?_
  rw [hextent, ← hlength]
  exact Device.lt_extent hwidth hheight _

theorem Regular.aligned (h : f.Regular)
    (hshort : ∀ w ∈ f.wireTypes, w.length < f.device.width ∧ w.length < f.device.height) {t : Tile}
    {side side' : Side} {c c' : Channel} (hc : f.layout.channelAt? t side = .ok (some c))
    (hc' : f.layout.channelAt? t side' = .ok (some c')) :
    Channel.Aligned f.wireTypes f.layout.counts f.directionality c c' side side' where
  laid := (h.laid_of_channelAt? hc).1
  laid' := (h.laid_of_channelAt? hc').1
  whole := Layout.whole_blocks h.build_eq
  seen_eq s hs := by
    obtain ⟨i, hi⟩ := List.mem_iff_getElem?.mp hs
    rw [h.seen_eq hshort hc hi, h.seen_eq hshort hc' hi]

end Fabric

/-! ## What a rule contributes -/

/-- **A rule of identity permutations joins a source to its twin**, once for each formula. -/
theorem Switchblock.ruleContributions_of_aligned {ws : List WireType} {counts : List Nat}
    {d : Directionality} {source destination : Channel} {s : Switchblock} {p : SidePair} {r : Rule}
    (haligned : Channel.Aligned ws counts d source destination p.enter p.leave)
    (hends : r.SameEnds) (hprogram : ∀ g ∈ s.formulas p, g.program = [.push .track]) (track : Nat) :
    s.ruleContributions d p source destination track r
      = if track ∈ source.admitted p.enter r.fromTypes r.fromPoints (p.enter.sourceHeading d) then
          List.replicate (s.formulas p).length
            (.ok ⟨d.twin (p.leave.destinationHeading d) track, r.switchName⟩)
        else [] := by
  rw [ruleContributions, haligned.admitted_eq_map_twin hends.types hends.points
    (d.runs_sourceHeading _) (d.runs_destinationHeading _)]
  set sources := source.admitted p.enter r.fromTypes r.fromPoints (p.enter.sourceHeading d)
  by_cases hmem : track ∈ sources
  · obtain ⟨t, ht⟩ := Option.ne_none_iff_exists'.mp fun hnone =>
      List.idxOf?_eq_none_iff.mp hnone hmem
    obtain ⟨hlt, htrack, -⟩ := List.idxOf?_eq_some_iff.mp ht
    have hne : sources.map (d.twin (p.leave.destinationHeading d)) ≠ [] := by
      simpa using List.ne_nil_of_mem hmem
    simp only [ht, if_neg hne, if_pos hmem]
    refine List.eq_replicate_iff.mpr ⟨List.length_map _, fun o ho => ?_⟩
    obtain ⟨g, hg, rfl⟩ := List.mem_map.mp ho
    have hindex : ((t : Int) % (sources.length : Int)).toNat = t := by
      rw [Int.emod_eq_of_lt (by omega) (by omega), Int.toNat_natCast]
    simp only [contribution, Formula.eval_of_program_eq (hprogram g hg), List.length_map, hindex]
    rw [List.getD_eq_getElem _ _ (by simpa using hlt), List.getElem_map, htrack]
  · simp only [List.idxOf?_eq_none_iff.mpr hmem, if_neg hmem]

/-! ## The targets of a key -/

namespace Fabric

variable {a : Architecture} {f : Fabric} {k : Key} {u : Target} {t : Tile} {p : SidePair}
  {track : Nat}

/-- **A key with a target has both channels**, at whatever tile. -/
theorem hasChannel_of_connects (h : f.Connects k u) :
    f.HasChannel k.tile k.enter ∧ f.HasChannel k.tile k.leave := by
  obtain ⟨ts, hts, hu⟩ := h
  rw [targets_eq_map] at hts
  obtain ⟨tss, htss, rfl⟩ := Outcome.map_eq_ok_iff.mp hts
  rw [mem_foldl_addOnce, List.mem_flatten] at hu
  obtain hu | ⟨us, hus, hu⟩ := hu
  · exact absurd hu List.not_mem_nil
  obtain ⟨s, -, hs⟩ := Outcome.exists_of_mem_mapM htss hus
  by_cases hsides : k.enter = k.leave
  · rw [targetsIn_of_enter_eq_leave hsides] at hs
    exact absurd (Except.ok.inj hs ▸ hu) List.not_mem_nil
  rw [targetsIn, SidePair.of?, dif_pos hsides] at hs
  simp only at hs
  split_ifs at hs
  · exact absurd (Except.ok.inj hs ▸ hu) List.not_mem_nil
  obtain ⟨source?, hsource, hs⟩ := Outcome.bind_eq_ok_iff.mp hs
  obtain ⟨destination?, hdestination, hs⟩ := Outcome.bind_eq_ok_iff.mp hs
  rw [Outcome.liftM_eq_ok_iff] at hsource hdestination
  rcases source? with _ | source <;> rcases destination? with _ | destination
  · exact absurd (Except.ok.inj hs ▸ hu) List.not_mem_nil
  · exact absurd (Except.ok.inj hs ▸ hu) List.not_mem_nil
  · exact absurd (Except.ok.inj hs ▸ hu) List.not_mem_nil
  · exact ⟨⟨source, hsource⟩, destination, hdestination⟩

variable (h : f.Regular) (hidentity : f.Identity)

include h hidentity

/-- **Every contribution is a target on the wire of the source**, named for its rule. -/
theorem Regular.exists_of_mem_contributions {source destination : Channel}
    (hsource : f.layout.channelAt? t p.enter = .ok (some source))
    (hdestination : f.layout.channelAt? t p.leave = .ok (some destination)) {o : Outcome Target}
    (ho : o ∈ f.contributions p source destination track) :
    ∃ u, o = .ok u ∧ KeepsWire f.directionality p track u.track := by
  obtain ⟨s, hs, ho⟩ := List.mem_flatMap.mp ho
  obtain ⟨r, hr, ho⟩ := List.mem_flatMap.mp ho
  have haligned := h.aligned hidentity.short hsource hdestination
  rw [Switchblock.ruleContributions_of_aligned haligned (hidentity.sameEnds s hs r hr)
    (hidentity.program_eq s hs p)] at ho
  split_ifs at ho with hmem
  · refine ⟨_, List.eq_of_mem_replicate ho, keepsWire_twin ?_⟩
    exact haligned.heading_of_admits (haligned.laid.mem_admitted_iff.mp hmem)
  · exact absurd ho List.not_mem_nil

theorem Regular.exists_targets_eq_ok (hx : k.x < 2 ^ 64 - 1) (hy : k.y < 2 ^ 64 - 1) :
    ∃ ts, f.targets k = .ok ts := by
  by_cases hnowhere : k.enter = k.leave ∨ ¬ f.HasChannel k.tile k.enter
      ∨ ¬ f.HasChannel k.tile k.leave ∨ f.device.channelWidth ≤ k.track
  · exact ⟨_, h.targets_eq_nil hx hy hnowhere⟩
  simp only [not_or, not_not, not_le] at hnowhere
  obtain ⟨hsides, ⟨source, hsource⟩, ⟨destination, hdestination⟩, htrack⟩ := hnowhere
  rw [h.targets_eq (p := ⟨k.enter, k.leave, hsides⟩) rfl rfl hsource hdestination htrack,
    Outcome.exists_map_eq_ok_iff, Outcome.exists_mapM_eq_ok_iff]
  intro o ho
  obtain ⟨u, hu, -⟩ := h.exists_of_mem_contributions hidentity (p := ⟨k.enter, k.leave, hsides⟩)
    hsource hdestination ho
  exact ⟨u, hu⟩

omit hidentity in
/-- **What a rule contributes is a target of the key**, if the key has targets at all. -/
theorem Regular.connects_of_mem_contributions (henter : p.enter = k.enter)
    (hleave : p.leave = k.leave) {source destination : Channel}
    (hsource : f.layout.channelAt? k.tile k.enter = .ok (some source))
    (hdestination : f.layout.channelAt? k.tile k.leave = .ok (some destination))
    (htrack : k.track < f.device.channelWidth) (hok : ∃ ts, f.targets k = .ok ts)
    (hu : .ok u ∈ f.contributions p source destination k.track) : f.Connects k u := by
  obtain ⟨ts, hts⟩ := hok
  refine ⟨ts, hts, ?_⟩
  rw [h.targets_eq henter hleave hsource hdestination htrack] at hts
  obtain ⟨us, hus, rfl⟩ := Outcome.map_eq_ok_iff.mp hts
  exact List.mem_eraseDups.mpr ((Outcome.mem_mapM_iff hus).mpr ⟨_, hu, rfl⟩)

theorem Regular.keepsWire_of_connects (hconnects : f.Connects ⟨t.x, t.y, p.enter, p.leave, track⟩ u) :
    KeepsWire f.directionality p track u.track := by
  obtain ⟨⟨source, hsource⟩, destination, hdestination⟩ := hasChannel_of_connects hconnects
  have htile := h.lt_of_mem_tiles (h.mem_tiles_of_hasChannel ⟨source, hsource⟩)
  obtain ⟨-, -, -, htrack⟩ := h.leads_of_connects htile.1 htile.2 hconnects
  obtain ⟨ts, hts, hu⟩ := hconnects
  rw [h.targets_eq (p := p) rfl rfl hsource hdestination htrack] at hts
  obtain ⟨us, hus, rfl⟩ := Outcome.map_eq_ok_iff.mp hts
  obtain ⟨o, ho, hou⟩ := Outcome.exists_of_mem_mapM hus (List.mem_eraseDups.mp hu)
  obtain ⟨u', rfl, hkeeps⟩ := h.exists_of_mem_contributions hidentity hsource hdestination ho
  obtain rfl := Except.ok.inj hou
  exact hkeeps

/-- **A source of a rule is passed on by it**, to one target. -/
theorem Regular.exists_target_of_source {source destination : Channel}
    (hsource : f.layout.channelAt? t p.enter = .ok (some source))
    (hdestination : f.layout.channelAt? t p.leave = .ok (some destination)) {s : Switchblock}
    (hs : s ∈ f.switchblocks) (hformulas : s.formulas p ≠ []) {r : Rule} (hr : r ∈ s.rules)
    (hmem : track ∈ source.admitted p.enter r.fromTypes r.fromPoints
      (p.enter.sourceHeading f.directionality)) :
    ∃ u : Target, KeepsWire f.directionality p track u.track ∧ u.switchName = r.switchName ∧
      f.Connects ⟨t.x, t.y, p.enter, p.leave, track⟩ u ∧
      ∃ wire wirepoint, source.track track = .ok wire ∧
        source.wirepoint track p.enter = .ok wirepoint ∧
        s.ruleTargets f.directionality p source destination wire.wireType wirepoint track r
          = .ok (List.replicate (s.formulas p).length u) := by
  have haligned := h.aligned hidentity.short hsource hdestination
  have hadmits := haligned.laid.mem_admitted_iff.mp hmem
  have hcontributions := Switchblock.ruleContributions_of_aligned haligned
    (hidentity.sameEnds s hs r hr) (hidentity.program_eq s hs p) track
  rw [if_pos hmem] at hcontributions
  have htile := h.lt_of_mem_tiles (h.mem_tiles_of_hasChannel ⟨source, hsource⟩)
  have htrack : track < f.device.channelWidth :=
    h.size_tracks_eq hsource ▸ haligned.laid.lt_of_admits hadmits
  refine ⟨⟨f.directionality.twin (p.leave.destinationHeading f.directionality) track,
    r.switchName⟩, keepsWire_twin (haligned.heading_of_admits hadmits), rfl,
    h.connects_of_mem_contributions (p := p) rfl rfl hsource hdestination htrack
      (h.exists_targets_eq_ok hidentity htile.1 htile.2) ?_, ?_⟩
  · refine List.mem_flatMap.mpr ⟨s, hs, List.mem_flatMap.mpr ⟨r, hr, ?_⟩⟩
    rw [hcontributions]
    exact List.mem_replicate.mpr ⟨by simpa using hformulas, rfl⟩
  · obtain ⟨slot, hslot, -⟩ := haligned.laid.exists_slot (haligned.laid.lt_of_admits hadmits)
    refine ⟨_, _, haligned.laid.track_eq hslot, haligned.laid.wirepoint_eq hslot p.enter, ?_⟩
    have htargets := Switchblock.ruleTargets_eq haligned.laid haligned.laid' s p hslot r
    rw [hcontributions, Outcome.mapM_replicate] at htargets
    exact htargets

omit h hidentity

/-- **Identity permutations keep the physical wire.**  Take an accepted device within the limit on
which no wire reaches across, every rule has equal sets of types and of wirepoints at both ends, and
every formula is `t`.  Each key then has targets, and every one of them is on the wire of its
source: the source itself on a bidirectional device or straight on, and the track that is driven
away from the switchblock on a unidirectional one.  Between two channels, a rule of a switchblock
with formulas for the sides passes each of its sources on, to one such target. -/
theorem keepsWire_of_identity (haccept : ofArchitecture a = .ok f)
    (hwidth : a.device.width ≤ sizeLimit) (hheight : a.device.height ≤ sizeLimit)
    (hidentity : a.Identity) (t : Tile) (p : SidePair) (track : Nat) :
    (t.x < 2 ^ 64 - 1 → t.y < 2 ^ 64 - 1 →
      ∃ ts, f.targets ⟨t.x, t.y, p.enter, p.leave, track⟩ = .ok ts) ∧
    (∀ ts, f.targets ⟨t.x, t.y, p.enter, p.leave, track⟩ = .ok ts →
      ∀ u ∈ ts, KeepsWire f.directionality p track u.track) ∧
    ∀ source destination, f.layout.channelAt? t p.enter = .ok (some source) →
      f.layout.channelAt? t p.leave = .ok (some destination) →
      ∀ s ∈ f.switchblocks, s.formulas p ≠ [] → ∀ r ∈ s.rules, ∀ sources,
        source.candidates p.enter r.fromTypes r.fromPoints (p.enter.sourceHeading f.directionality)
          = .ok sources → track ∈ sources →
        ∃ u : Target, KeepsWire f.directionality p track u.track ∧ u.switchName = r.switchName ∧
          f.Connects ⟨t.x, t.y, p.enter, p.leave, track⟩ u ∧
          ∃ wire wirepoint, source.track track = .ok wire ∧
            source.wirepoint track p.enter = .ok wirepoint ∧
            s.ruleTargets f.directionality p source destination wire.wireType wirepoint track r
              = .ok (List.replicate (s.formulas p).length u) := by
  have hsize : Moderate a.device a.wireTypes :=
    ⟨hwidth, hheight, fun w hw => (hidentity.short w hw).1.le.trans hwidth⟩
  have hregular := regular_of_architecture haccept hsize
  have hidentity' := identity_of_architecture haccept hidentity
  refine ⟨fun hx hy => hregular.exists_targets_eq_ok hidentity' hx hy, fun ts hts u hu =>
    hregular.keepsWire_of_connects hidentity' ⟨ts, hts, hu⟩, ?_⟩
  intro source destination hsource hdestination s hs hformulas r hr sources hsources hmem
  rw [(hregular.laid_of_channelAt? hsource).1.candidates_eq] at hsources
  obtain rfl := Except.ok.inj hsources
  exact hregular.exists_target_of_source hidentity' hsource hdestination hs hformulas hr hmem

/-- A small device of unidirectional wires of two lengths, with a rule that lists its ends
differently but names the same wires at both. -/
def steady : Architecture where
  device := ⟨3, 3, 4⟩
  directionality := .unidirectional
  wireTypes := [⟨"short", 1, 1⟩, ⟨"long", 2, 1⟩]
  switchblocks := [{
    name := "around"
    directionality := .unidirectional
    switchName := "mux"
    rules := [⟨["long", "short"], ["short", "long", "short"], some [0], some [0, 0], none⟩]
    permutations := (∅ : Permutations).insert ⟨.bottom, .left, Side.bottom_ne_left⟩ ["t"] }]

theorem identity_steady : steady.Identity where
  short := by decide
  sameEnds := by decide
  compile_eq s hs p text htext := by
    have hall : ∀ s ∈ steady.switchblocks, ∀ p ∈ SidePair.all, ∀ text ∈ s.formulas p,
      text = "t" := by decide
    rw [hall s hs p p.mem_all text htext]
    decide

set_option maxRecDepth 4000 in
/-- Around a corner the long wire goes on as its other track. -/
theorem keepsWire_of_identity_steady : ∃ f source destination s r,
    ofArchitecture steady = .ok f ∧
    f.layout.channelAt? ⟨1, 2⟩ .bottom = .ok (some source) ∧
    f.layout.channelAt? ⟨1, 2⟩ .left = .ok (some destination) ∧
    s ∈ f.switchblocks ∧ r ∈ s.rules ∧
    f.targets ⟨1, 2, .bottom, .left, 2⟩ = .ok [⟨3, "mux"⟩] ∧
    KeepsWire .unidirectional ⟨.bottom, .left, by decide⟩ 2 3 ∧
    ∃ u : Target, u.switchName = "mux" ∧ f.Connects ⟨1, 2, .bottom, .left, 2⟩ u := by
  refine ⟨_, _, _, _, _, by cbv, by cbv, by cbv, List.mem_singleton_self _,
    List.mem_singleton_self _, by cbv, ?_, ?_⟩
  · exact (@keepsWire_of_identity steady _ (by cbv) (by decide) (by decide) identity_steady ⟨1, 2⟩
      ⟨.bottom, .left, by decide⟩ 2).2.1 [⟨3, "mux"⟩] (by cbv) ⟨3, "mux"⟩ (by decide)
  · obtain ⟨u, -, hname, hconnects, -⟩ := (@keepsWire_of_identity steady _ (by cbv) (by decide)
      (by decide) identity_steady ⟨1, 2⟩ ⟨.bottom, .left, by decide⟩ 2).2.2 _ _ (by cbv) (by cbv) _
      (List.mem_singleton_self _) (by decide) _ (List.mem_singleton_self _) [0, 2] (by cbv)
      (by decide)
    exact ⟨u, hname, hconnects⟩

end Fabric

end FpgaRouting
