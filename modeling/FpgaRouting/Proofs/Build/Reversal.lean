import FpgaRouting.Proofs.Build.Legality

/-!
# Proofs/Build/Reversal — which connections lead back

      bidirectional                      unidirectional

      enter ──▸ a        b ──▸ leave     enter ▸▸▸ a ──▸ b ▸▸▸ leave
                ╰──────▸╯                                │
                ╰◂──────╯                                ╰── drives away, is no source

Where wires have no heading, a connection is entered together with its reverse by the tile that has
it.  Where they have one, a side takes its sources and its destinations from opposite headings, and
**a track that a connection leaves by never enters there** (`not_legal_reverse`).  Merging, dividing
and copying keep both: a map that a build returns is closed under reversal, or holds no reverse at
all (`reverse_of_builds`).
-/

namespace FpgaRouting

/-! ## Headings -/

/-- **A side has its sources and its destinations among opposite headings.** -/
theorem Side.sourceHeading_ne_destinationHeading (side : Side) :
    side.sourceHeading .unidirectional ≠ side.destinationHeading .unidirectional := by
  cases side <;> decide

/-- A track that is admitted has one heading, whoever admits it. -/
theorem Channel.Laid.heading_eq_of_admits {ws : List WireType} {counts : List Nat}
    {d : Directionality} {c : Channel} (h : c.Laid ws counts d) {i : Nat} {side side' : Side}
    {types types' : List Nat} {points points' : Option (List Nat)} {heading heading' : Heading}
    (hadmits : c.admits side types points heading i = true)
    (hadmits' : c.admits side' types' points' heading' i = true) : heading = heading' := by
  obtain ⟨s, hs, -, -, rfl⟩ := h.admits_iff.mp hadmits
  obtain ⟨s', hs', -, -, rfl⟩ := h.admits_iff.mp hadmits'
  obtain rfl := Option.some.inj (hs.symm.trans hs')
  rfl

/-! ## The reverse of an addition -/

/-- **Reversing twice leads back to the start.** -/
theorem Key.reverse_reverse (k : Key) (u : Target) (name : String) :
    (k.reverse u).reverse ⟨k.track, name⟩ = k := rfl

namespace Fabric

variable {f : Fabric} {k : Key} {u : Target} {m : Connections}

/-- A connection that is added is added with its reverse. -/
theorem reverse_mem_connectionAdditions (hheading : f.directionality = .bidirectional) {l : Key}
    {w : Target} (h : (k, u) ∈ f.connectionAdditions l w) :
    (k.reverse u, ⟨k.track, u.switchName⟩) ∈ f.connectionAdditions l w := by
  rw [mem_connectionAdditions_iff hheading] at h ⊢
  rcases h with ⟨rfl, rfl⟩ | ⟨rfl, rfl⟩
  · exact .inr ⟨(l.reverse_reverse w w.switchName).symm, rfl⟩
  · exact .inl ⟨rfl, rfl⟩

/-- **A computed map of a bidirectional device is closed under reversal.** -/
theorem has_reverse_of_connectionsOver (hheading : f.directionality = .bidirectional)
    {ts : List Tile} (hm : f.connectionsOver ts = .ok m) (hhas : m.Has k u) :
    m.Has (k.reverse u) ⟨k.track, u.switchName⟩ := by
  rw [has_connectionsOver_iff hm] at hhas ⊢
  obtain ⟨htile, l, hl, w, hconnects, hadd⟩ := hhas
  exact ⟨htile, l, hl, w, hconnects, reverse_mem_connectionAdditions hheading hadd⟩

/-! ## The reverse of a legal connection -/

/-- **On a device of one heading nothing leads back**: the target of a legal connection runs away
from the switchblock, and no rule admits it as a source. -/
theorem Regular.not_legal_reverse (h : f.Regular) (hheading : f.directionality = .unidirectional)
    (hlegal : f.Legal k u) (v : Target) : ¬ f.Legal (k.reverse u) v := by
  rintro ⟨-, back, -, -, -, hback, -, -, -, -, r, -, -, hsource, -⟩
  obtain ⟨-, -, destination, -, -, -, hchannel, -, -, -, r', -, -, -, hdestination⟩ := hlegal
  -- The channel that the connection leaves by is the one that its reverse enters by.
  obtain rfl : destination = back := Option.some.inj (Except.ok.inj (hchannel.symm.trans hback))
  rw [hheading] at hsource hdestination
  exact k.leave.sourceHeading_ne_destinationHeading
    ((h.laid_of_channelAt? hchannel).1.heading_eq_of_admits hsource hdestination)

/-- A computed map of such a device holds legal connections only. -/
theorem Regular.legal_of_connectionsOver (h : f.Regular)
    (hheading : f.directionality = .unidirectional) {ts : List Tile}
    (hts : ∀ t ∈ ts, t.x < 2 ^ 64 - 1 ∧ t.y < 2 ^ 64 - 1) (hm : f.connectionsOver ts = .ok m)
    (hhas : m.Has k u) : f.Legal k u := by
  obtain ⟨htile, l, -, w, hconnects, hadd⟩ := (has_connectionsOver_iff hm).mp hhas
  rw [connectionAdditions_of_unidirectional hheading, List.mem_singleton] at hadd
  obtain ⟨rfl, rfl⟩ := Prod.mk.inj hadd
  exact h.legal_of_connects (hts _ htile).1 (hts _ htile).2 hconnects

/-! ## Every build -/

/-- **Reversal.**  On an accepted device within the limit, take any connection of a map that a build
returns.  If wires have no heading, its reverse is stored too, with the same switch; if they have
one, the key that would lead back is absent. -/
theorem reverse_of_builds {a : Architecture} (haccept : ofArchitecture a = .ok f)
    (hsize : Moderate a.device a.wireTypes) (hbuilds : f.Builds m) (hhas : m.Has k u) :
    (f.directionality = .bidirectional → m.Has (k.reverse u) ⟨k.track, u.switchName⟩) ∧
    (f.directionality = .unidirectional → m.get? (k.reverse u) = none) := by
  have hregular := regular_of_architecture haccept hsize
  obtain ⟨ts, hts, hm⟩ := hregular.exists_connectionsOver_of_builds hbuilds
  refine ⟨fun hheading => has_reverse_of_connectionsOver hheading hm hhas, fun hheading => ?_⟩
  have hlegal := hregular.legal_of_connectionsOver hheading hts hm hhas
  by_contra hpresent
  obtain ⟨v, hv⟩ := Connections.exists_has_of_contains
    (Option.isSome_iff_ne_none.mpr hpresent : m.contains (k.reverse u) = true)
  exact hregular.not_legal_reverse hheading hlegal v
    (hregular.legal_of_connectionsOver hheading hts hm hv)

set_option maxRecDepth 4000 in
/-- A copied tile of the small bidirectional device, where the reverse has no formula of its own;
and a tile of the unidirectional one. -/
theorem reverse_of_builds_staggered :
    (∃ f m, ofArchitecture staggered = .ok f ∧ f.connections = .ok m ∧
      m.Has ⟨1, 2, .bottom, .top, 0⟩ ⟨1, "mux"⟩ ∧ m.Has ⟨1, 2, .top, .bottom, 1⟩ ⟨0, "mux"⟩) ∧
    ∃ f m, ofArchitecture oneWay = .ok f ∧ f.connectionsOver [⟨1, 1⟩] = .ok m ∧
      m.Has ⟨1, 1, .bottom, .right, 0⟩ ⟨2, "mux"⟩ ∧ m.get? ⟨1, 1, .right, .bottom, 2⟩ = none := by
  refine ⟨⟨_, _, by cbv, by cbv, by decide, ?_⟩, _, _, by cbv, by cbv, by decide, ?_⟩
  · exact (@reverse_of_builds _ ⟨1, 2, .bottom, .top, 0⟩ ⟨1, "mux"⟩ _ staggered (by cbv) (by decide)
      (.stamped (by cbv)) (by decide)).1 rfl
  · exact (@reverse_of_builds _ ⟨1, 1, .bottom, .right, 0⟩ ⟨2, "mux"⟩ _ oneWay (by cbv) (by decide)
      (@Builds.someTiles _ _ [⟨1, 1⟩] (by decide) (by cbv)) (by decide)).2 rfl

end Fabric

end FpgaRouting
