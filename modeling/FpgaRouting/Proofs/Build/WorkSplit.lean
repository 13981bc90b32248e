import FpgaRouting.Build.WorkSplit
import FpgaRouting.Proofs.Outcome

/-!
# Proofs/Build/WorkSplit — the parts of a work make up the whole

      0  1  2  3  4  5  6  7        8 tiles, 3 workers
     └───────┘└───────┘└────┘

Each part starts where the one before it stops, so the slices of a list lie end to end.  **Joined
again they are the list**, for any number of workers (`flatten_slices`).

Workers are handed their parts one by one, in words, also those for whom nothing is left.  No word
is too small for that on the way, and **without the empty parts what is handed out is the range**,
in parts of which none is longer than the one before it, or shorter by more than one
(`split_evenly`).
-/

namespace FpgaRouting.Part

/-- The first of consecutive parts, and the others. -/
theorem succ_mul_add_min (size longer parts : Nat) :
    (parts + 1) * size + min longer (parts + 1)
      = size + (if 0 < longer then 1 else 0) + (parts * size + min (longer - 1) parts) := by
  rw [Nat.succ_mul]
  split_ifs <;> omega

/-- **Consecutive slices lie end to end.** -/
theorem flatten_slices_consecutive {α : Type} (as : List α) (start size longer parts : Nat) :
    ((consecutive start size longer parts).map (·.slice as)).flatten
      = (as.drop start).take (parts * size + min longer parts) := by
  induction parts generalizing start longer with
  | zero => simp [consecutive]
  | succ parts ih =>
    rw [consecutive, List.map_cons, List.flatten_cons, ih, succ_mul_add_min]
    refine (List.take_add.trans ?_).symm
    simp only [slice, List.drop_drop, Nat.add_assoc, Nat.add_sub_cancel_left]

/-- The sizes of the parts that are not empty add up to the length. -/
theorem min_mul_div_add_min_mod {workers : Nat} (hpos : 0 < workers) (length : Nat) :
    min workers length * (length / workers) + min (length % workers) (min workers length)
      = length := by
  have hmod := Nat.mod_lt length hpos
  by_cases hle : workers ≤ length
  · rw [Nat.min_eq_left hle, Nat.min_eq_left hmod.le, Nat.div_add_mod]
  · -- There are fewer members than workers, and each part holds one of them.
    rw [Nat.min_eq_right (by omega), Nat.mod_eq_of_lt (by omega), Nat.div_eq_of_lt (by omega)]
    omega

/-- **The slices of a divided list make up the list.** -/
theorem flatten_slices {α : Type} (as : List α) (workers : Nat) :
    ((split 0 as.length workers).map (·.slice as)).flatten = as := by
  rw [split, flatten_slices_consecutive, List.drop_zero, Nat.sub_zero,
    min_mul_div_add_min_mod (by omega), List.take_length]

/-! ## Parts in a row -/

variable {start stop size longer parts workers : Nat} {p : Part}

/-- The number of places in a part. -/
def count (p : Part) : Nat := p.stop - p.start

/-- The places that a part covers. -/
def places (p : Part) : List Nat := List.range' p.start p.count

/-- **Consecutive parts cover a range**, each place once. -/
theorem flatMap_places_consecutive (start size longer parts : Nat) :
    (consecutive start size longer parts).flatMap places
      = List.range' start (parts * size + min longer parts) := by
  induction parts generalizing start longer with
  | zero => simp [consecutive]
  | succ parts ih =>
    rw [consecutive, List.flatMap_cons, ih, succ_mul_add_min, Nat.add_assoc, places, count]
    simp only [Nat.add_sub_cancel_left]
    exact List.range'_append_1

/-- **Each part starts where the one before it stops.** -/
theorem isChain_consecutive (start size longer parts : Nat) :
    (consecutive start size longer parts).IsChain fun p q => p.stop = q.start := by
  fun_induction consecutive start size longer parts with
  | case1 => exact .nil
  | case2 start longer parts stop ih =>
    cases parts with
    | zero => exact .singleton _
    | succ parts => exact .cons_cons rfl ih

/-- A part has the size, or one more while longer parts are left. -/
theorem bounds_of_mem_consecutive (h : p ∈ consecutive start size longer parts) :
    start ≤ p.start ∧ p.start + size ≤ p.stop ∧
      p.stop ≤ p.start + size + if 0 < longer then 1 else 0 := by
  fun_induction consecutive start size longer parts with
  | case1 => simp at h
  | case2 start longer parts stop ih =>
    rcases List.mem_cons.mp h with rfl | h
    · exact ⟨le_rfl, Nat.le_add_right _ _, le_rfl⟩
    · obtain ⟨hstart, hle, hge⟩ := ih h
      refine ⟨by omega, hle, hge.trans ?_⟩
      split_ifs <;> omega

/-- **Parts follow each other, the longer ones first**, and no part is longer than another by more
than one. -/
theorem pairwise_consecutive (start size longer parts : Nat) :
    (consecutive start size longer parts).Pairwise fun p q =>
      p.stop ≤ q.start ∧ q.count ≤ p.count ∧ p.count ≤ q.count + 1 := by
  fun_induction consecutive start size longer parts with
  | case1 => exact List.Pairwise.nil
  | case2 start longer parts stop ih =>
    refine List.pairwise_cons.mpr ⟨fun q hq => ?_, ih⟩
    obtain ⟨hstart, hle, hge⟩ := bounds_of_mem_consecutive hq
    have hstop : stop = start + size + if 0 < longer then 1 else 0 := rfl
    simp only [count]
    split_ifs at hge hstop <;> omega

theorem length_consecutive (start size longer parts : Nat) :
    (consecutive start size longer parts).length = parts := by
  induction parts generalizing start longer with
  | zero => rfl
  | succ parts ih => rw [consecutive, List.length_cons, ih]

/-- Of parts of no size only the longer ones have a place. -/
theorem filter_consecutive_zero (start longer parts : Nat) :
    (consecutive start 0 longer parts).filter (fun p => p.start ≠ p.stop)
      = consecutive start 0 longer (min parts longer) := by
  induction parts generalizing start longer with
  | zero => simp [consecutive]
  | succ parts ih =>
    cases longer with
    | zero =>
      rw [Nat.min_zero, consecutive]
      exact (List.filter_cons_of_neg (by simp)).trans ((ih start 0).trans (by simp [consecutive]))
    | succ longer =>
      rw [Nat.succ_min_succ, consecutive, consecutive]
      exact (List.filter_cons_of_pos (by simp)).trans (congrArg _ (ih (start + 1) longer))

/-- **The parts are those of all workers, less the empty ones.** -/
theorem split_eq_filter (start stop workers : Nat) :
    split start stop workers
      = (consecutive start ((stop - start) / max workers 1) ((stop - start) % max workers 1)
          (max workers 1)).filter fun p => p.start ≠ p.stop := by
  have hpos : 0 < max workers 1 := by omega
  rw [split]
  rcases Nat.lt_or_ge (stop - start) (max workers 1) with hfew | hmany
  · rw [Nat.div_eq_of_lt hfew, Nat.mod_eq_of_lt hfew, filter_consecutive_zero]
  · rw [Nat.min_eq_left hmany, eq_comm, List.filter_eq_self]
    intro p hp
    obtain ⟨-, hsize, -⟩ := bounds_of_mem_consecutive hp
    have hone := Nat.div_pos hmany hpos
    rw [decide_eq_true_iff]
    omega

theorem start_lt_stop_of_mem_split (h : p ∈ split start stop workers) : p.start < p.stop := by
  obtain ⟨-, hle, -⟩ := bounds_of_mem_consecutive h
  rw [split_eq_filter] at h
  have hne : p.start ≠ p.stop := of_decide_eq_true (List.mem_filter.mp h).2
  exact lt_of_le_of_ne ((Nat.le_add_right _ _).trans hle) hne

/-! ## Handed out in words -/

/-- The size of the next part, and how many longer ones are left after it. -/
def nextShare (size longer : Nat) : Except Fault (Nat × Nat) :=
  if 0 < longer then do return (← Word.add size 1, ← Word.sub longer 1)
  else .ok (size, longer)

/-- Hands out consecutive parts one by one. -/
def handOut (start size longer : Nat) : Nat → Except Fault (List Part)
  | 0 => .ok []
  | parts + 1 => do
    let (own, longer) ← nextShare size longer
    let stop ← Word.add start own
    return ⟨start, stop⟩ :: (← handOut stop size longer parts)

/-- Divides a range in words: every worker is handed a part, and the empty ones are dropped. -/
def divide (start stop workers : Nat) : Except Fault (List Part) := do
  let length := stop - start
  let workers := max workers 1
  let size := length / workers
  let longer ← Word.sub length (← Word.mul size workers)
  return (← handOut start size longer workers).filter fun p => p.start ≠ p.stop

theorem nextShare_eq (h : 0 < longer → size + 1 < Word.count) :
    nextShare size longer = .ok (size + (if 0 < longer then 1 else 0), longer - 1) := by
  rw [nextShare]
  split_ifs with hlonger
  · rw [Word.add, Word.check_of_lt (h hlonger), Outcome.ok_bind, Word.sub_of_le hlonger]
    rfl
  · rw [Nat.sub_eq_zero_of_le (by omega), Nat.eq_zero_of_not_pos hlonger]
    rfl

/-- **Parts can be handed out in words** if the last one stops at a word. -/
theorem handOut_eq (hstop : start + (parts * size + min longer parts) < Word.count) :
    handOut start size longer parts = .ok (consecutive start size longer parts) := by
  induction parts generalizing start longer with
  | zero => rfl
  | succ parts ih =>
    rw [succ_mul_add_min, ← Nat.add_assoc] at hstop
    have hsize : 0 < longer → size + 1 < Word.count := by
      intro hlonger
      rw [if_pos hlonger] at hstop
      omega
    rw [handOut, nextShare_eq hsize, Outcome.ok_bind]
    simp only
    rw [Word.add, Word.check_of_lt (by omega), Outcome.ok_bind, ih hstop, Outcome.ok_bind,
      consecutive, Nat.add_assoc]
    rfl

/-- **No word is too small for dividing a range of words.** -/
theorem divide_eq_split (hstart : start < Word.count) (hstop : stop < Word.count) (workers : Nat) :
    divide start stop workers = .ok (split start stop workers) := by
  have hpos : 0 < max workers 1 := by omega
  have hle := Nat.div_mul_le_self (stop - start) (max workers 1)
  have hrest : stop - start - (stop - start) / max workers 1 * max workers 1
      = (stop - start) % max workers 1 := (Nat.mod_eq_sub_div_mul ..).symm
  have hend : start + (max workers 1 * ((stop - start) / max workers 1)
      + min ((stop - start) % max workers 1) (max workers 1)) < Word.count := by
    rw [Nat.min_eq_left (Nat.mod_lt _ hpos).le, Nat.div_add_mod]
    omega
  rw [divide, Word.mul, Word.check_of_lt (by omega), Outcome.ok_bind, Word.sub_of_le hle,
    Outcome.ok_bind, hrest, handOut_eq hend, Outcome.ok_bind, split_eq_filter]
  rfl

/-! ## The division -/

/-- **How parts divide a range evenly among workers.**  None is empty, each starts where the one
before it stops, and together they cover the range.  A later part is not longer than an earlier
one, or shorter by more than one. -/
structure Evenly (start stop workers : Nat) (parts : List Part) : Prop where
  start_lt_stop : ∀ p ∈ parts, p.start < p.stop
  adjacent : parts.IsChain fun p q => p.stop = q.start
  ascending : parts.Pairwise fun p q => p.stop ≤ q.start
  covers : parts.flatMap places = List.range' start (stop - start)
  count_le : parts.Pairwise fun p q => q.count ≤ p.count ∧ p.count ≤ q.count + 1
  length_le : parts.length ≤ max workers 1
  eq_nil : stop ≤ start → parts = []

/-- **Work is divided evenly**, for any range of words and any number of workers: nobody is handed
more than a word can say, and the parts cover the range. -/
theorem split_evenly (hstart : start < Word.count) (hstop : stop < Word.count) (workers : Nat) :
    divide start stop workers = .ok (split start stop workers) ∧
      Evenly start stop workers (split start stop workers) := by
  have hpairs := pairwise_consecutive start ((stop - start) / max workers 1)
    ((stop - start) % max workers 1) (min (max workers 1) (stop - start))
  refine ⟨divide_eq_split hstart hstop workers, {
    start_lt_stop := fun p hp => start_lt_stop_of_mem_split hp
    adjacent := isChain_consecutive ..
    ascending := hpairs.imp fun h => h.1
    covers := ?_
    count_le := hpairs.imp fun h => h.2
    length_le := ?_
    eq_nil := fun hle => ?_ }⟩
  · rw [split, flatMap_places_consecutive, min_mul_div_add_min_mod (by omega)]
  · rw [split, length_consecutive]
    exact Nat.min_le_left _ _
  · rw [split, Nat.sub_eq_zero_of_le hle, Nat.min_zero]
    rfl

/-- Five workers and the last two words: three of them have nothing to do. -/
theorem split_evenly_lastWords :
    divide (2 ^ 64 - 3) (2 ^ 64 - 1) 5
        = .ok [⟨2 ^ 64 - 3, 2 ^ 64 - 2⟩, ⟨2 ^ 64 - 2, 2 ^ 64 - 1⟩] ∧
      Evenly (2 ^ 64 - 3) (2 ^ 64 - 1) 5 (split (2 ^ 64 - 3) (2 ^ 64 - 1) 5) :=
  ⟨by decide +kernel, (@split_evenly (2 ^ 64 - 3) (2 ^ 64 - 1) (by decide) (by decide) 5).2⟩

end FpgaRouting.Part
