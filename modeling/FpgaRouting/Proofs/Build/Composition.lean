import FpgaRouting.Proofs.Build.Periodicity
import FpgaRouting.Proofs.Build.Tiles

/-!
# Proofs/Build/Composition — switchblock definitions compose

    A       ──▸  m  ──┐
                      ├──▸  n merged into m
    B       ──▸  n  ──┘          ║
    A ++ B  ─────────────────▸  the map

A tile is computed switchblock by switchblock, and what one of them adds does not depend on the
others.  On one device **the switchblocks of two lists therefore make the map of the first list with
the map of the second merged into it** (`connections_append`), and no definition hides or alters the
connections of another.
-/

namespace FpgaRouting

/-- The same device with other switchblocks. -/
def Architecture.withSwitchblocks (a : Architecture) (ss : List SwitchblockRecord) : Architecture :=
  { a with switchblocks := ss }

namespace Fabric

/-- The same fabric with other switchblocks. -/
def withSwitchblocks (f : Fabric) (ss : List Switchblock) : Fabric := { f with switchblocks := ss }

variable {a : Architecture} {as bs : List SwitchblockRecord} {f g h : Fabric}

/-! ## Acceptance -/

theorem ofArchitecture_withSwitchblocks_iff :
    ofArchitecture (a.withSwitchblocks as) = .ok f ↔
      firstRepeated [] (a.wireTypes.map (·.name)) = none ∧
      as.mapM (·.resolve a.directionality a.wireTypes) = .ok f.switchblocks ∧
      Layout.build a.device a.directionality a.wireTypes = .ok f.layout ∧
      f.device = a.device ∧ f.directionality = a.directionality ∧ f.wireTypes = a.wireTypes := by
  refine ⟨ofArchitecture_eq_ok, fun ⟨hnames, hswitchblocks, hlayout, hrest⟩ => ?_⟩
  obtain ⟨device, directionality, wireTypes, layout, switchblocks⟩ := f
  obtain ⟨rfl, rfl, rfl⟩ := hrest
  obtain ⟨hlayout, hheld⟩ := Layout.build_eq_ok_iff.mp hlayout
  refine ofArchitecture_eq_ok_iff.mpr ⟨?_, hheld⟩
  simp only [accept, Architecture.withSwitchblocks, hnames, hswitchblocks, hlayout]
  rfl

/-- **Fabrics of one device differ in their switchblocks alone.** -/
theorem eq_withSwitchblocks (hg : ofArchitecture (a.withSwitchblocks as) = .ok g)
    (hh : ofArchitecture (a.withSwitchblocks bs) = .ok h) :
    h = g.withSwitchblocks h.switchblocks := by
  obtain ⟨-, -, hlayout, hdevice, hdirectionality, hwireTypes⟩ :=
    ofArchitecture_withSwitchblocks_iff.mp hg
  obtain ⟨-, -, hlayout', hdevice', hdirectionality', hwireTypes'⟩ :=
    ofArchitecture_withSwitchblocks_iff.mp hh
  obtain ⟨device, directionality, wireTypes, layout, switchblocks⟩ := h
  obtain rfl : g.layout = layout := Except.ok.inj (hlayout.symm.trans hlayout')
  obtain rfl : device = g.device := hdevice'.trans hdevice.symm
  obtain rfl : directionality = g.directionality := hdirectionality'.trans hdirectionality.symm
  obtain rfl : wireTypes = g.wireTypes := hwireTypes'.trans hwireTypes.symm
  rfl

/-- **Two accepted lists are accepted together**, as the switchblocks of both. -/
theorem ofArchitecture_append (hg : ofArchitecture (a.withSwitchblocks as) = .ok g)
    (hh : ofArchitecture (a.withSwitchblocks bs) = .ok h) :
    ofArchitecture (a.withSwitchblocks (as ++ bs))
      = .ok (g.withSwitchblocks (g.switchblocks ++ h.switchblocks)) := by
  obtain ⟨hnames, hswitchblocks, hrest⟩ := ofArchitecture_withSwitchblocks_iff.mp hg
  obtain ⟨-, hswitchblocks', -⟩ := ofArchitecture_withSwitchblocks_iff.mp hh
  refine ofArchitecture_withSwitchblocks_iff.mpr ⟨hnames, ?_, hrest⟩
  rw [List.mapM_append, hswitchblocks, hswitchblocks']
  rfl

theorem exists_ofArchitecture_append_iff :
    (∃ f, ofArchitecture (a.withSwitchblocks (as ++ bs)) = .ok f) ↔
      (∃ g, ofArchitecture (a.withSwitchblocks as) = .ok g) ∧
        ∃ h, ofArchitecture (a.withSwitchblocks bs) = .ok h := by
  refine ⟨fun ⟨f, hf⟩ => ?_, fun ⟨⟨g, hg⟩, h, hh⟩ => ⟨_, ofArchitecture_append hg hh⟩⟩
  obtain ⟨hnames, hboth, hrest⟩ := ofArchitecture_withSwitchblocks_iff.mp hf
  rw [List.mapM_append] at hboth
  obtain ⟨ss, hss, hboth⟩ := Outcome.bind_eq_ok_iff.mp hboth
  obtain ⟨ss', hss', -⟩ := Outcome.bind_eq_ok_iff.mp hboth
  exact ⟨⟨f.withSwitchblocks ss, ofArchitecture_withSwitchblocks_iff.mpr ⟨hnames, hss, hrest⟩⟩,
    f.withSwitchblocks ss', ofArchitecture_withSwitchblocks_iff.mpr ⟨hnames, hss', hrest⟩⟩

/-! ## One tile -/

variable {ss ss' : List Switchblock}

/-- **The switchblocks of two lists add one after another**, and fail in that order. -/
theorem tileAdditions_append (f : Fabric) (ss ss' : List Switchblock) (t : Tile) :
    (f.withSwitchblocks (ss ++ ss')).tileAdditions t = (do
      let es ← (f.withSwitchblocks ss).tileAdditions t
      let es' ← (f.withSwitchblocks ss').tileAdditions t
      return es ++ es') := by
  have heq : ∀ ss, (f.withSwitchblocks ss).tileAdditions t
      = List.flatten <$> ss.mapM (f.switchblockAdditions t) := fun _ => rfl
  rw [heq, heq, heq, List.mapM_append]
  cases ss.mapM (f.switchblockAdditions t) with
  | error e => rfl
  | ok ess =>
    cases ss'.mapM (f.switchblockAdditions t) with
    | error e => rfl
    | ok ess' => exact congrArg Except.ok List.flatten_append

theorem connectionsAt_append (f : Fabric) (ss ss' : List Switchblock) (t : Tile) :
    (f.withSwitchblocks (ss ++ ss')).connectionsAt t = (do
      let m ← (f.withSwitchblocks ss).connectionsAt t
      let n ← (f.withSwitchblocks ss').connectionsAt t
      return m.merge n) := by
  simp only [connectionsAt, addTile_eq, tileAdditions_append]
  cases (f.withSwitchblocks ss).tileAdditions t with
  | error e => rfl
  | ok es =>
    cases (f.withSwitchblocks ss').tileAdditions t with
    | error e => rfl
    | ok es' =>
      refine congrArg Except.ok ?_
      rw [Connections.merge_addPairs, Connections.merge_empty, Connections.addPairs_append]

/-! ## A whole build -/

theorem computes_append_iff {t : Tile} :
    (f.withSwitchblocks (ss ++ ss')).Computes t ↔
      (f.withSwitchblocks ss).Computes t ∧ (f.withSwitchblocks ss').Computes t := by
  simp only [Computes, tileAdditions_append, Outcome.bind_eq_ok_iff]
  constructor
  · rintro ⟨_, es, hes, es', hes', -⟩
    exact ⟨⟨es, hes⟩, es', hes'⟩
  · rintro ⟨⟨es, hes⟩, es', hes'⟩
    exact ⟨_, es, hes, es', hes', rfl⟩

theorem addedTo_append {k : Key} (h : (f.withSwitchblocks (ss ++ ss')).Computes k.tile) :
    (f.withSwitchblocks (ss ++ ss')).addedTo k
      = (f.withSwitchblocks ss).addedTo k ++ (f.withSwitchblocks ss').addedTo k := by
  obtain ⟨⟨es, hes⟩, es', hes'⟩ := computes_append_iff.mp h
  have hboth : (f.withSwitchblocks (ss ++ ss')).tileAdditions k.tile = .ok (es ++ es') := by
    rw [tileAdditions_append, hes, hes']
    rfl
  simp only [addedTo, hboth, hes, hes', List.filter_append, List.map_append]

/-- **A build succeeds with both lists exactly if it succeeds with each**, and the second map is then
merged into the first. -/
theorem connectionsOver_append_iff (f : Fabric) (ss ss' : List Switchblock) {ts : List Tile}
    {m : Connections} :
    (f.withSwitchblocks (ss ++ ss')).connectionsOver ts = .ok m ↔
      ∃ n n', (f.withSwitchblocks ss).connectionsOver ts = .ok n ∧
        (f.withSwitchblocks ss').connectionsOver ts = .ok n' ∧ m = n.merge n' := by
  have hmerge : ∀ {m n n' : Connections},
      (f.withSwitchblocks (ss ++ ss')).connectionsOver ts = .ok m →
      (f.withSwitchblocks ss).connectionsOver ts = .ok n →
      (f.withSwitchblocks ss').connectionsOver ts = .ok n' → m = n.merge n' := by
    intro m n n' hm hn hn'
    have hall := exists_connectionsOver_eq_ok_iff.mp ⟨m, hm⟩
    ext k : 1
    rw [Connections.targetsOf_merge, targetsOf_connectionsOver hm, targetsOf_connectionsOver hn,
      targetsOf_connectionsOver hn']
    split_ifs with htile
    · rw [addedTo_append (hall k.tile htile), List.foldl_append, foldl_addOnce_foldl]
      rfl
    · rfl
  constructor
  · intro hm
    have hall := exists_connectionsOver_eq_ok_iff.mp ⟨m, hm⟩
    obtain ⟨n, hn⟩ := exists_connectionsOver_eq_ok_iff.mpr fun t ht =>
      (computes_append_iff.mp (hall t ht)).1
    obtain ⟨n', hn'⟩ := exists_connectionsOver_eq_ok_iff.mpr fun t ht =>
      (computes_append_iff.mp (hall t ht)).2
    exact ⟨n, n', hn, hn', hmerge hm hn hn'⟩
  · rintro ⟨n, n', hn, hn', rfl⟩
    have hall := exists_connectionsOver_eq_ok_iff.mp ⟨n, hn⟩
    have hall' := exists_connectionsOver_eq_ok_iff.mp ⟨n', hn'⟩
    obtain ⟨m, hm⟩ := exists_connectionsOver_eq_ok_iff.mpr fun t ht =>
      computes_append_iff.mpr ⟨hall t ht, hall' t ht⟩
    rw [hm, hmerge hm hn hn']

/-- **Switchblock definitions compose.**  On one device two lists of switchblocks are accepted
together exactly if each is accepted alone.  A tile then has the connections of the first list with
those of the second merged into them; it fails as the first list does, or else as the second.  The
same holds of a build of the whole device that succeeds. -/
theorem connections_append (a : Architecture) (as bs : List SwitchblockRecord) :
    ((∃ f, ofArchitecture (a.withSwitchblocks (as ++ bs)) = .ok f) ↔
      (∃ g, ofArchitecture (a.withSwitchblocks as) = .ok g) ∧
        ∃ h, ofArchitecture (a.withSwitchblocks bs) = .ok h) ∧
    ∀ f g h, ofArchitecture (a.withSwitchblocks (as ++ bs)) = .ok f →
      ofArchitecture (a.withSwitchblocks as) = .ok g →
      ofArchitecture (a.withSwitchblocks bs) = .ok h →
      (∀ t, f.connectionsAt t = (do
        let m ← g.connectionsAt t
        let n ← h.connectionsAt t
        return m.merge n)) ∧
      ∀ m, f.computedConnections = .ok m ↔
        ∃ n n', g.computedConnections = .ok n ∧ h.computedConnections = .ok n' ∧
          m = n.merge n' := by
  refine ⟨exists_ofArchitecture_append_iff, fun f g h hf hg hh => ?_⟩
  obtain rfl := Except.ok.inj (hf.symm.trans (ofArchitecture_append hg hh))
  rw [eq_withSwitchblocks hg hh]
  exact ⟨connectionsAt_append g g.switchblocks h.switchblocks,
    fun m => connectionsOver_append_iff g g.switchblocks h.switchblocks⟩

/-- A switchblock for the way back through the small device. -/
def back : SwitchblockRecord where
  name := "back"
  directionality := .bidirectional
  switchName := "mux"
  rules := [⟨["long"], ["short"], none, none, some "buffer"⟩,
    ⟨["long"], ["short"], none, none, none⟩]
  permutations := (∅ : Permutations).insert ⟨.top, .bottom, by decide⟩ ["t"]

set_option maxRecDepth 4000 in
/-- At one tile the reverse of a connection of the first switchblock is a connection of the second,
and keeps its place. -/
theorem connections_append_staggered : ∃ f g h m n,
    ofArchitecture (staggered.withSwitchblocks (staggered.switchblocks ++ [back])) = .ok f ∧
    ofArchitecture (staggered.withSwitchblocks staggered.switchblocks) = .ok g ∧
    ofArchitecture (staggered.withSwitchblocks [back]) = .ok h ∧
    g.connectionsAt ⟨2, 1⟩ = .ok m ∧ h.connectionsAt ⟨2, 1⟩ = .ok n ∧
    f.connectionsAt ⟨2, 1⟩ = .ok (m.merge n) ∧
    m.get? ⟨2, 1, .top, .bottom, 1⟩ = some [⟨0, "mux"⟩, ⟨1, "mux"⟩] ∧
    n.get? ⟨2, 1, .top, .bottom, 1⟩ = some [⟨0, "buffer"⟩, ⟨0, "mux"⟩] ∧
    (m.merge n).get? ⟨2, 1, .top, .bottom, 1⟩
      = some [⟨0, "mux"⟩, ⟨1, "mux"⟩, ⟨0, "buffer"⟩] := by
  refine ⟨_, _, _, _, _, by cbv, by cbv, by cbv, by cbv, by cbv, ?_, by cbv, by cbv, by cbv⟩
  exact (((connections_append staggered staggered.switchblocks [back]).2 _ _ _ (by cbv) (by cbv)
    (by cbv)).1 ⟨2, 1⟩).trans (by cbv)

end Fabric

end FpgaRouting
