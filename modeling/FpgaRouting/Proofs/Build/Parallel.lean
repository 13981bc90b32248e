import FpgaRouting.Proofs.Build.Workers

/-!
# Proofs/Build/Parallel — the build on several workers is the build on one

    decide ──▸ computed tiles ══▸ m ──▸ copied tiles ══▸ m'        ══▸  on a crew of workers
                                  └───── merge ─────────┴──▸ all connections

The computed tiles are divided among a crew of workers, and once they are joined the copied ones
among another.  What a tile adds does not depend on the tiles before it, so each crew returns what
one worker would.  **For any number of workers and any schedule the build ends with the connections,
or the very failure, of the build on one** (`runsTo_iff`).
-/

namespace FpgaRouting

namespace Stamping

/-- What a copied tile adds. -/
def copyAdditions (p : Stamping) (reference : Connections) (t : Tile) :
    Except Fault (List (Key × Target)) :=
  (fun x => (reference.atTile ⟨x, 1⟩).flatMap fun e => e.2.map fun u => (e.1.movedTo t, u))
    <$> p.sourceColumn t

/-- **A copied tile adds the same to every map.** -/
theorem copyTile_eq_map (p : Stamping) (reference m : Connections) (t : Tile) :
    p.copyTile reference m t = m.addPairs <$> p.copyAdditions reference t := by
  rw [copyTile, copyAdditions]
  cases p.sourceColumn t with
  | error e => rfl
  | ok x =>
    refine congrArg Except.ok ?_
    simp only [Connections.addPairs, List.foldl_flatMap, List.foldl_map]
    rfl

end Stamping

namespace Fabric

/-! ## Runs of the build -/

/-- The plan of a build, none if it computes every tile. -/
def planFor (f : Fabric) (stamp : Bool) : Outcome (Option Stamping) :=
  if stamp then do pure (← StampDecision.of f).plan? else pure none

/-- The tiles of each worker. -/
def shares (ts : List Tile) (workers : Nat) : List (List Tile) :=
  (Part.split 0 ts.length workers).map (·.slice ts)

/-- **Whether some schedule makes a build end with a result.**  Its two crews work one after the
other, the second on what the first has returned. -/
inductive RunsTo (f : Fabric) (workers : Nat) (stamp : Bool) : Outcome Connections → Prop
  | undecided {e : Failure} (h : f.planFor stamp = .error e) : RunsTo f workers stamp (.error e)
  | computed {r : Outcome Connections} (h : f.planFor stamp = .ok none)
      (hr : Crew.Returns f.addTile (shares f.tiles workers) r) : RunsTo f workers stamp r
  | failed {p : Stamping} {e : Failure} (h : f.planFor stamp = .ok (some p))
      (he : Crew.Returns f.addTile (shares (p.computedTiles f) workers) (.error e)) :
      RunsTo f workers stamp (.error e)
  | copied {p : Stamping} {m : Connections} {r : Except Fault Connections}
      (h : f.planFor stamp = .ok (some p))
      (hm : Crew.Returns f.addTile (shares (p.computedTiles f) workers) (.ok m))
      (hr : Crew.Returns (p.copyTile m) (shares (p.copiedTiles f) workers) r) :
      RunsTo f workers stamp (m.merge <$> Outcome.ofWord r)

variable {f : Fabric} {p : Stamping} {m : Connections} {workers : Nat} {stamp : Bool}

theorem returns_addTile_iff {ts : List Tile} {r : Outcome Connections} :
    Crew.Returns f.addTile (shares ts workers) r ↔ r = f.connectionsOver ts := by
  rw [Crew.returns_iff_of_addPairs addTile_eq, shares, Part.flatten_slices, connectionsOver]

theorem returns_copyTile_iff {ts : List Tile} {r : Except Fault Connections} :
    Crew.Returns (p.copyTile m) (shares ts workers) r ↔ r = p.copyTiles m ts .empty := by
  rw [Crew.returns_iff_of_addPairs (p.copyTile_eq_map m), shares, Part.flatten_slices,
    Stamping.copyTiles]

/-! ## The build on one worker -/

/-- The build on one worker that follows a plan. -/
def buildBy (f : Fabric) : Option Stamping → Outcome Connections
  | some p => f.stampedConnections p
  | none => f.computedConnections

theorem build_eq_bind_planFor (f : Fabric) (stamp : Bool) :
    (if stamp then f.connections else f.computedConnections)
      = f.planFor stamp >>= f.buildBy := by
  cases stamp with
  | false => rfl
  | true =>
    rw [if_pos rfl, planFor, if_pos rfl, connections]
    cases StampDecision.of f with
    | error e => rfl
    | ok d => cases hplan : d.plan? <;> simp only [Outcome.liftM_ok, Outcome.ok_bind, hplan] <;> rfl

/-- A stamped build merges the copies of what it has computed. -/
theorem stampedConnections_eq_bind (f : Fabric) (p : Stamping) :
    f.stampedConnections p = f.connectionsOver (p.computedTiles f) >>= fun m =>
      m.merge <$> Outcome.ofWord (p.copyTiles m (p.copiedTiles f) .empty) := by
  rw [stampedConnections]
  refine congrArg _ (funext fun m => ?_)
  cases p.copyTiles m (p.copiedTiles f) .empty <;> rfl

/-! ## The build on several workers -/

/-- **Whatever the schedule, a build ends as on one worker.** -/
theorem runsTo_iff_eq_build {r : Outcome Connections} :
    f.RunsTo workers stamp r ↔ r = if stamp then f.connections else f.computedConnections := by
  rw [build_eq_bind_planFor]
  constructor
  · intro h
    cases h with
    | undecided h => rw [h, Outcome.error_bind]
    | computed h hr => rw [h, Outcome.ok_bind, buildBy, returns_addTile_iff.mp hr,
        computedConnections]
    | failed h he => rw [h, Outcome.ok_bind, buildBy, stampedConnections_eq_bind,
        ← returns_addTile_iff.mp he, Outcome.error_bind]
    | copied h hm hr => rw [h, Outcome.ok_bind, buildBy, stampedConnections_eq_bind,
        ← returns_addTile_iff.mp hm, Outcome.ok_bind, returns_copyTile_iff.mp hr]
  · rintro rfl
    rcases h : f.planFor stamp with e | _ | p
    · exact .undecided h
    · exact .computed h (returns_addTile_iff.mpr rfl)
    · rw [Outcome.ok_bind, buildBy, stampedConnections_eq_bind]
      cases hm : f.connectionsOver (p.computedTiles f) with
      | error e => exact .failed h (returns_addTile_iff.mpr hm.symm)
      | ok m => exact .copied h (returns_addTile_iff.mpr hm.symm) (returns_copyTile_iff.mpr rfl)

/-- **Dividing tiles and joining the parts changes nothing**, if what a tile adds does not depend on
the map it is added to. -/
theorem join_mapM_split {ε : Type} {step : Connections → Tile → Except ε Connections}
    {additions : Tile → Except ε (List (Key × Target))}
    (h : ∀ m t, step m t = m.addPairs <$> additions t) (workers : Nat) (ts : List Tile) :
    Connections.join <$> ((Part.split 0 ts.length workers).mapM fun part =>
      (part.slice ts).foldlM step .empty) = ts.foldlM step .empty := by
  have hmerge := Connections.foldl_merge_mapM h .empty (shares ts workers)
  rw [shares, List.mapM_map, Part.flatten_slices] at hmerge
  exact hmerge

/-- The build on several workers that follows a plan. -/
def parallelBuildBy (f : Fabric) (workers : Nat) : Option Stamping → Outcome Connections
  | some p => do
    let computed := p.computedTiles f
    let m ← Connections.join <$> (Part.split 0 computed.length workers).mapM fun part =>
      f.connectionsOver (part.slice computed)
    let copied := p.copiedTiles f
    m.merge <$> Outcome.ofWord (Connections.join <$>
      (Part.split 0 copied.length workers).mapM fun part =>
        p.copyTiles m (part.slice copied) .empty)
  | none => Connections.join <$> (Part.split 0 f.tiles.length workers).mapM fun part =>
    f.connectionsOver (part.slice f.tiles)

theorem parallelConnections_eq_bind_planFor (f : Fabric) (workers : Nat) (stamp : Bool) :
    f.parallelConnections workers stamp = f.planFor stamp >>= f.parallelBuildBy workers := by
  rw [parallelConnections, planFor]
  cases stamp with
  | false => simp only [parallelBuildBy, Bool.false_eq_true, if_false, pure_bind, bind_pure_comp]
  | true =>
    cases hdecision : StampDecision.of f with
    | error e => rfl
    | ok d =>
      rcases hplan : d.plan? with _ | p <;>
        simp only [if_true, Outcome.liftM_ok, Outcome.ok_bind, pure_bind, hplan, parallelBuildBy,
          bind_pure_comp, Outcome.ofWord_map, Functor.map_map, bind_map_left]

theorem parallelBuildBy_eq (f : Fabric) (workers : Nat) (plan? : Option Stamping) :
    f.parallelBuildBy workers plan? = f.buildBy plan? := by
  have hcomputed := join_mapM_split (addTile_eq (f := f)) workers
  cases plan? with
  | none => exact hcomputed f.tiles
  | some p =>
    have hcopied := fun m => join_mapM_split (p.copyTile_eq_map m) workers
    rw [buildBy, stampedConnections_eq_bind, parallelBuildBy]
    simp only [connectionsOver, Stamping.copyTiles, hcomputed, hcopied]

/-- **The parts that several workers build make up what one worker does.** -/
theorem parallelConnections_eq_build (f : Fabric) (workers : Nat) (stamp : Bool) :
    f.parallelConnections workers stamp
      = if stamp then f.connections else f.computedConnections := by
  rw [build_eq_bind_planFor, parallelConnections_eq_bind_planFor]
  exact congrArg _ (funext (f.parallelBuildBy_eq workers))

/-- **The build on several workers is the build on one.**  For any number of workers, none counting
as one, and whichever of them goes on at each moment, the stamped build ends with the result of
the build, and the other one with that of computing every tile: the same connections, or the same
failure. -/
theorem runsTo_iff (f : Fabric) (workers : Nat) :
    (f.parallelConnections workers true = f.connections ∧
      ∀ r, f.RunsTo workers true r ↔ r = f.connections) ∧
    (f.parallelConnections workers false = f.computedConnections ∧
      ∀ r, f.RunsTo workers false r ↔ r = f.computedConnections) :=
  ⟨⟨parallelConnections_eq_build f workers true, fun _ => runsTo_iff_eq_build⟩,
    parallelConnections_eq_build f workers false, fun _ => runsTo_iff_eq_build⟩

end Fabric

end FpgaRouting
