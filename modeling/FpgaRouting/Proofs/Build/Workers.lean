import FpgaRouting.Build.Parallel
import FpgaRouting.Proofs.Build.Tiles
import FpgaRouting.Proofs.Build.WorkSplit

/-!
# Proofs/Build/Workers — the order of the workers does not show

      worker 0   ──●──●──▸ ended          ╮
      worker 1   ──●──▸                   ├ joined in this order, each once it has ended
      worker 2   ──●──●──●──▸ ended       ╯

A crew of workers starts with the parts of a work.  Any of them may take the next step at any time,
on a map of its own; the maps are joined in the order of the parts, and the first failure in that
order ends the build.  **What the crew is going to return is settled from the start**: no step
changes it (`Crew.Step.result_eq`), and no schedule keeps a crew from returning
(`Crew.exists_run`).  It is what one worker alone would return.
-/

namespace FpgaRouting

open Relation

section

variable {ε : Type}

/-! ## Workers -/

/-- A worker: at work, with its map so far and the tiles that are left, or at its end. -/
inductive Worker (ε : Type)
  | atWork (m : Connections) (rest : List Tile)
  | ended (result : Except ε Connections)

namespace Worker

variable (work : Connections → Tile → Except ε Connections)

/-- What a worker does next, nothing once it has ended. -/
def next? : Worker ε → Option (Worker ε)
  | atWork m [] => some (ended (.ok m))
  | atWork m (t :: ts) =>
    match work m t with
    | .ok m' => some (atWork m' ts)
    | .error e => some (ended (.error e))
  | ended _ => none

/-- What a worker is going to end with. -/
def result : Worker ε → Except ε Connections
  | atWork m rest => rest.foldlM work m
  | ended result => result

/-- The number of steps that a worker has left at most. -/
def stepsLeft : Worker ε → Nat
  | atWork _ rest => rest.length + 1
  | ended _ => 0

variable {work} {w w' : Worker ε}

/-- **No step of a worker changes what it is going to end with.** -/
theorem result_eq_of_next? (h : w.next? work = some w') : w'.result work = w.result work := by
  match w with
  | atWork m [] =>
    obtain rfl := Option.some.inj h
    rfl
  | atWork m (t :: ts) =>
    rw [next?] at h
    rw [result, List.foldlM_cons]
    split at h
    · next m' hm' =>
      obtain rfl := Option.some.inj h
      rw [hm', Outcome.ok_bind, result]
    · next e he =>
      obtain rfl := Option.some.inj h
      rw [he, Outcome.error_bind, result]

theorem stepsLeft_lt_of_next? (h : w.next? work = some w') : w'.stepsLeft < w.stepsLeft := by
  match w with
  | atWork m [] =>
    obtain rfl := Option.some.inj h
    exact Nat.zero_lt_one
  | atWork m (t :: ts) =>
    rw [next?] at h
    split at h
    · obtain rfl := Option.some.inj h
      exact Nat.lt_succ_self _
    · obtain rfl := Option.some.inj h
      exact Nat.succ_pos _

theorem exists_next?_of_atWork (m : Connections) (rest : List Tile) :
    ∃ w', (atWork m rest).next? work = some w' := by
  match rest with
  | [] => exact ⟨_, rfl⟩
  | t :: ts =>
    rw [next?]
    split <;> exact ⟨_, rfl⟩

end Worker

/-! ## Crews -/

/-- A crew: the workers that are not joined yet with the map joined so far, or a result. -/
inductive Crew (ε : Type)
  | joining (workers : List (Worker ε)) (m : Connections)
  | returned (result : Except ε Connections)

namespace Crew

variable (work : Connections → Tile → Except ε Connections)

/-- A crew that starts with the parts of a work. -/
def start (parts : List (List Tile)) : Crew ε := joining (parts.map (.atWork .empty)) .empty

/-- A step of a crew.  Workers share nothing that anyone changes, so what one of them does for a
tile counts as one step. -/
inductive Step : Crew ε → Crew ε → Prop
  /-- Any worker goes on, however far the others are. -/
  | goOn {before after : List (Worker ε)} {w w' : Worker ε} {m : Connections}
      (h : w.next? work = some w') :
      Step (joining (before ++ w :: after) m) (joining (before ++ w' :: after) m)
  /-- The first worker is joined once it has ended. -/
  | join {part m : Connections} {ws : List (Worker ε)} :
      Step (joining (.ended (.ok part) :: ws) m) (joining ws (m.merge part))
  /-- If it has failed, the workers after it are not waited for. -/
  | fail {e : ε} {m : Connections} {ws : List (Worker ε)} :
      Step (joining (.ended (.error e) :: ws) m) (returned (.error e))
  | finish {m : Connections} : Step (joining [] m) (returned (.ok m))

/-- Whether some schedule makes the workers on some parts return a result. -/
def Returns (parts : List (List Tile)) (r : Except ε Connections) : Prop :=
  ReflTransGen (Step work) (start parts) (returned r)

/-- What a crew is going to return. -/
def result : Crew ε → Except ε Connections
  | joining ws m => (·.foldl Connections.merge m) <$> ws.mapM (·.result work)
  | returned result => result

/-- The number of steps that a crew has left at most. -/
def stepsLeft : Crew ε → Nat
  | joining ws _ => (ws.map Worker.stepsLeft).sum + ws.length + 1
  | returned _ => 0

variable {work} {c c' : Crew ε}

/-- **No step changes what a crew is going to return.** -/
theorem Step.result_eq (h : Step work c c') : c'.result work = c.result work := by
  cases h with
  | goOn h =>
    simp only [result, List.mapM_append, List.mapM_cons, Worker.result_eq_of_next? h]
  | @join part m ws =>
    -- The part is merged now, and before the parts of the others either way.
    rw [result, result, List.mapM_cons]
    cases ws.mapM (·.result work) <;> rfl
  | fail => rfl
  | finish => rfl

/-- **Nor does any run.** -/
theorem result_eq_of_run (h : ReflTransGen (Step work) c c') : c'.result work = c.result work := by
  induction h with
  | refl => rfl
  | tail _ hstep ih => exact hstep.result_eq.trans ih

/-- **Every step brings a crew closer to its end.** -/
theorem Step.stepsLeft_lt (h : Step work c c') : c'.stepsLeft < c.stepsLeft := by
  cases h with
  | goOn h =>
    have hlt := Worker.stepsLeft_lt_of_next? h
    simp only [stepsLeft, List.map_append, List.map_cons, List.sum_append, List.sum_cons,
      List.length_append, List.length_cons]
    omega
  | join =>
    simp only [stepsLeft, List.map_cons, List.sum_cons, Worker.stepsLeft, List.length_cons]
    omega
  | fail => exact Nat.succ_pos _
  | finish => exact Nat.succ_pos _

/-- **A crew that has not returned can go on.** -/
theorem exists_step (ws : List (Worker ε)) (m : Connections) :
    ∃ c', Step work (joining ws m) c' := by
  match ws with
  | [] => exact ⟨_, .finish⟩
  | .ended (.ok part) :: ws => exact ⟨_, .join⟩
  | .ended (.error e) :: ws => exact ⟨_, .fail⟩
  | .atWork m' rest :: ws =>
    obtain ⟨w', hw'⟩ := @Worker.exists_next?_of_atWork _ work m' rest
    exact ⟨_, @Step.goOn _ work [] ws _ w' m hw'⟩

/-- **Wherever its schedule has led it, a crew can return.** -/
theorem exists_run (c : Crew ε) : ∃ r, ReflTransGen (Step work) c (returned r) := by
  induction hsteps : c.stepsLeft using Nat.strong_induction_on generalizing c with
  | _ n ih =>
    match c with
    | returned r => exact ⟨r, .refl⟩
    | joining ws m =>
      obtain ⟨c', hstep⟩ := @exists_step _ work ws m
      obtain ⟨r, hr⟩ := ih c'.stepsLeft (hsteps ▸ hstep.stepsLeft_lt) c' rfl
      exact ⟨r, .head hstep hr⟩

/-- **A crew returns what it was going to return from the start**, and nothing else. -/
theorem returns_iff {parts : List (List Tile)} {r : Except ε Connections} :
    Returns work parts r ↔ r = (start parts).result work := by
  constructor
  · intro h
    exact result_eq_of_run h
  · rintro rfl
    obtain ⟨r, hr⟩ := @exists_run _ work (start parts)
    have hresult : r = (start parts).result work := result_eq_of_run hr
    exact hresult ▸ hr

/-- **A crew returns what one worker alone would**, if what a step adds does not depend on the map
it is added to. -/
theorem returns_iff_of_addPairs {additions : Tile → Except ε (List (Key × Target))}
    (h : ∀ m t, work m t = m.addPairs <$> additions t) {parts : List (List Tile)}
    {r : Except ε Connections} :
    Returns work parts r ↔ r = parts.flatten.foldlM work .empty := by
  rw [returns_iff, start, result, List.mapM_map, ← Connections.foldl_merge_mapM h]
  rfl

end Crew

end

end FpgaRouting
