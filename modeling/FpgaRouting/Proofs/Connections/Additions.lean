import FpgaRouting.Connections.Basic
import FpgaRouting.Proofs.Outcome

/-!
# Proofs/Connections/Additions — a map is what has been added to it

    add k a ──▸ add l b ──▸ add k c ──▸ add k a        targets of k:  a, c
                                                       targets of l:  b

A map is read through `targetsOf`, which answers an absent key with no targets.  **What a key leads
to depends on the additions to that key alone**, in their order; and a map that is merged into
another, or copied tile by tile, contributes its targets key by key.
-/

namespace FpgaRouting

/-! ## Adding members once -/

section

variable {α : Type} [DecidableEq α] {as bs : List α}

theorem mem_foldl_addOnce {a : α} : a ∈ bs.foldl addOnce as ↔ a ∈ as ∨ a ∈ bs := by
  induction bs generalizing as with
  | nil => simp
  | cons b bs ih => rw [List.foldl_cons, ih, mem_addOnce, List.mem_cons, or_assoc]

/-- Members that are there already change nothing. -/
theorem foldl_addOnce_of_subset (h : ∀ b ∈ bs, b ∈ as) : bs.foldl addOnce as = as := by
  induction bs with
  | nil => rfl
  | cons b bs ih =>
    rw [List.foldl_cons, addOnce, if_pos (h b (by simp)), ih fun c hc => h c (by simp [hc])]

/-- **Adding members once appends the new ones, each where it first stands.** -/
theorem foldl_addOnce_eq (as bs : List α) :
    bs.foldl addOnce as = as ++ (bs.filter (· ∉ as)).eraseDups := by
  induction bs generalizing as with
  | nil => simp
  | cons b bs ih =>
    rw [List.foldl_cons, ih, addOnce]
    by_cases hb : b ∈ as
    · rw [if_pos hb, List.filter_cons_of_neg (by simpa using hb)]
    · rw [if_neg hb, List.filter_cons_of_pos (by simpa using hb), List.eraseDups_cons,
        List.filter_filter, List.append_assoc, List.singleton_append]
      refine congrArg (fun cs => as ++ b :: List.eraseDups cs) (List.filter_congr fun c _ => ?_)
      by_cases hc : c = b <;> simp [hc]

/-- A list without repetitions keeps all its members. -/
theorem eraseDups_of_nodup (h : as.Nodup) : as.eraseDups = as := by
  induction as with
  | nil => rfl
  | cons a as ih =>
    obtain ⟨ha, has⟩ := List.nodup_cons.mp h
    have hkept : as.filter (fun b => !b == a) = as :=
      List.filter_eq_self.mpr fun b hb => by simpa using fun heq : b = a => ha (heq ▸ hb)
    rw [List.eraseDups_cons, hkept, ih has]

/-- **Distinct members are appended**, those that are there already left out. -/
theorem foldl_addOnce_eq_of_nodup (h : bs.Nodup) :
    bs.foldl addOnce as = as ++ bs.filter (· ∉ as) := by
  rw [foldl_addOnce_eq, eraseDups_of_nodup (h.filter _)]

/-- Distinct members added to none are the members themselves. -/
theorem foldl_addOnce_nil (h : bs.Nodup) : bs.foldl addOnce [] = bs := by
  rw [foldl_addOnce_eq_of_nodup h]
  simp

/-- **Adding the same members again changes nothing.** -/
theorem foldl_addOnce_idem : bs.foldl addOnce (bs.foldl addOnce as) = bs.foldl addOnce as :=
  foldl_addOnce_of_subset fun _ hb => mem_foldl_addOnce.mpr (.inr hb)

/-- **Members added to one list and then to another** have been added to both. -/
theorem foldl_addOnce_foldl {cs : List α} :
    (bs.foldl addOnce cs).foldl addOnce as = bs.foldl addOnce (cs.foldl addOnce as) := by
  induction bs generalizing cs with
  | nil => rfl
  | cons b bs ih =>
    have hhead : (addOnce cs b).foldl addOnce as = addOnce (cs.foldl addOnce as) b := by
      by_cases hb : b ∈ cs
      · have hmem : b ∈ cs.foldl addOnce as := mem_foldl_addOnce.mpr (.inr hb)
        rw [addOnce, addOnce, if_pos hb, if_pos hmem]
      · rw [addOnce, if_neg hb, List.foldl_append]
        rfl
    rw [List.foldl_cons, List.foldl_cons, ih, hhead]

end

/-! ## Entries with distinct keys -/

/-- **Of entries with distinct keys, one at most has a given key.** -/
theorem filter_key_of_mem {κ α : Type} [DecidableEq κ] {es : List (κ × α)}
    (hdistinct : es.Pairwise fun e e' => e.1 ≠ e'.1) {k : κ} {a : α} (h : (k, a) ∈ es) :
    es.filter (·.1 = k) = [(k, a)] := by
  induction es with
  | nil => simp at h
  | cons e es ih =>
    obtain ⟨he, hes⟩ := List.pairwise_cons.mp hdistinct
    rcases List.mem_cons.mp h with rfl | h
    · have hrest : es.filter (·.1 = k) = [] :=
        List.filter_eq_nil_iff.mpr fun e' he' => by simpa using fun heq => he e' he' heq.symm
      rw [List.filter_cons_of_pos (by simp), hrest]
    · rw [List.filter_cons_of_neg (by simpa using he _ h), ih hes h]

namespace Connections

/-! ## The targets of a key -/

/-- The targets of a key, none if it is absent. -/
def targetsOf (m : Connections) (k : Key) : List Target := (m.get? k).getD []

variable {m n : Connections}

theorem get?_eq (m : Connections) (k : Key) :
    m.get? k = if m.targetsOf k = [] then none else some (m.targetsOf k) := by
  rw [targetsOf]
  cases hget : m.get? k with
  | none => rfl
  | some ts => exact (if_neg (m.valid k ts hget).1).symm

/-- **A key that is present has a target.** -/
theorem exists_has_of_contains {k : Key} (h : m.contains k = true) : ∃ t, m.Has k t := by
  obtain ⟨ts, hts⟩ := Option.isSome_iff_exists.mp h
  obtain ⟨t, ht⟩ := List.exists_mem_of_ne_nil ts (m.valid k ts hts).1
  exact ⟨t, by simpa [Has, hts] using ht⟩

/-- **Two maps that lead to the same targets are the same map.** -/
@[ext]
theorem ext_targetsOf (h : ∀ k, m.targetsOf k = n.targetsOf k) : m = n :=
  ext_get? fun k => by rw [get?_eq, get?_eq, h]

theorem nodup_targetsOf (m : Connections) (k : Key) : (m.targetsOf k).Nodup := by
  rw [targetsOf]
  cases hget : m.get? k with
  | none => exact List.nodup_nil
  | some ts => exact (m.valid k ts hget).2

@[simp] theorem targetsOf_empty (k : Key) : empty.targetsOf k = [] := by simp [targetsOf]

theorem targetsOf_add (m : Connections) (k l : Key) (t : Target) :
    (m.add k t).targetsOf l
      = if k = l then addOnce (m.targetsOf l) t else m.targetsOf l := by
  rw [targetsOf, get?_add]
  split_ifs with h
  · subst h
    rfl
  · rfl

theorem targetsOf_addAll (m : Connections) (k l : Key) (ts : List Target) :
    (m.addAll k ts).targetsOf l
      = if k = l then ts.foldl addOnce (m.targetsOf l) else m.targetsOf l := by
  rw [addAll]
  induction ts generalizing m with
  | nil => simp
  | cons t ts ih =>
    rw [List.foldl_cons, ih, targetsOf_add]
    split_ifs <;> rfl

theorem targetsOf_toList (m : Connections) (k : Key) :
    (m.toList.filter (·.1 = k)).flatMap (·.2) = m.targetsOf k := by
  have hdistinct : m.toList.Pairwise fun e e' => e.1 ≠ e'.1 :=
    Std.ExtTreeMap.distinct_keys_toList.imp fun h heq =>
      h (Std.LawfulEqCmp.compare_eq_iff_eq.mpr heq)
  rw [targetsOf]
  cases hget : m.get? k with
  | none =>
    have hnone : m.toList.filter (·.1 = k) = [] := by
      refine List.filter_eq_nil_iff.mpr fun e he heq => ?_
      obtain rfl : e.1 = k := by simpa using heq
      simp [mem_toList.mp (show (e.1, e.2) ∈ m.toList from he)] at hget
    rw [hnone]
    rfl
  | some ts =>
    rw [filter_key_of_mem hdistinct (mem_toList.mpr hget)]
    simp

/-! ## Additions one by one -/

/-- Adds pairs of a key and a target, one after another. -/
def addPairs (m : Connections) (es : List (Key × Target)) : Connections :=
  es.foldl (fun m e => m.add e.1 e.2) m

theorem addPairs_append (m : Connections) (es es' : List (Key × Target)) :
    m.addPairs (es ++ es') = (m.addPairs es).addPairs es' := List.foldl_append

/-- **Only the additions to a key count for it.** -/
theorem targetsOf_addPairs (m : Connections) (es : List (Key × Target)) (k : Key) :
    (m.addPairs es).targetsOf k
      = ((es.filter (·.1 = k)).map (·.2)).foldl addOnce (m.targetsOf k) := by
  rw [addPairs]
  induction es generalizing m with
  | nil => rfl
  | cons e es ih =>
    rw [List.foldl_cons, ih, targetsOf_add, List.filter_cons]
    by_cases h : e.1 = k <;> simp [h]

/-- **Steps that add what does not depend on the map** add it all in the end, unless one fails. -/
theorem foldlM_addPairs {ε α : Type} {step : Connections → α → Except ε Connections}
    {additions : α → Except ε (List (Key × Target))}
    (h : ∀ m a, step m a = m.addPairs <$> additions a) (m : Connections) (as : List α) :
    as.foldlM step m = (fun ess => m.addPairs ess.flatten) <$> as.mapM additions :=
  Outcome.foldlM_eq_map_flatten h m as

/-- **Steps that each concern one tile** leave a key with what its tile has added, if that is among
them. -/
theorem targetsOf_foldlM {ε : Type} {step : Connections → Tile → Except ε Connections}
    {added : Key → List Target} {ts : List Tile}
    (hstep : ∀ t ∈ ts, ∀ m m', step m t = .ok m' → ∀ k, m'.targetsOf k
      = if k.tile = t then (added k).foldl addOnce (m.targetsOf k) else m.targetsOf k)
    {m m' : Connections} (h : ts.foldlM step m = .ok m') (k : Key) :
    m'.targetsOf k
      = if k.tile ∈ ts then (added k).foldl addOnce (m.targetsOf k) else m.targetsOf k := by
  induction ts generalizing m with
  | nil =>
    obtain rfl := Except.ok.inj h
    simp
  | cons t ts ih =>
    rw [List.foldlM_cons] at h
    obtain ⟨m₁, hm₁, hrest⟩ := Outcome.bind_eq_ok_iff.mp h
    rw [ih (fun u hu => hstep u (List.mem_cons_of_mem _ hu)) hrest,
      hstep t List.mem_cons_self m m₁ hm₁]
    by_cases htile : k.tile = t
    · -- A tile may be listed again; it then adds nothing new.
      simp only [htile, List.mem_cons, true_or, if_true, foldl_addOnce_idem, ite_self]
    · simp only [htile, List.mem_cons, false_or, if_false]

/-! ## Additions entry by entry -/

/-- Entries are added under keys of their own. -/
theorem targetsOf_foldl_addAll (move : Key → Key) (m : Connections)
    (es : List (Key × List Target)) (l : Key) :
    (es.foldl (fun m e => m.addAll (move e.1) e.2) m).targetsOf l
      = ((es.filter (move ·.1 = l)).flatMap (·.2)).foldl addOnce (m.targetsOf l) := by
  induction es generalizing m with
  | nil => rfl
  | cons e es ih =>
    rw [List.foldl_cons, ih, targetsOf_addAll, List.filter_cons]
    by_cases h : move e.1 = l <;> simp [h, List.foldl_append]

/-- **A merged map contributes its targets key by key.** -/
theorem targetsOf_merge (m n : Connections) (k : Key) :
    (m.merge n).targetsOf k = (n.targetsOf k).foldl addOnce (m.targetsOf k) := by
  rw [← targetsOf_toList n]
  exact targetsOf_foldl_addAll id m n.toList k

@[simp] theorem merge_empty (m : Connections) : m.merge empty = m := by
  ext k : 1
  rw [targetsOf_merge, targetsOf_empty, List.foldl_nil]

/-- **What is added to a part is added to the whole** that the part is merged into. -/
theorem merge_addPairs (m n : Connections) (es : List (Key × Target)) :
    m.merge (n.addPairs es) = (m.merge n).addPairs es := by
  ext k : 1
  rw [targetsOf_merge, targetsOf_addPairs, targetsOf_addPairs, targetsOf_merge,
    foldl_addOnce_foldl]

/-- **Work that goes on from a map** is work from no connections that is merged into it. -/
theorem foldlM_eq_merge {ε α : Type} {step : Connections → α → Except ε Connections}
    {additions : α → Except ε (List (Key × Target))}
    (h : ∀ m a, step m a = m.addPairs <$> additions a) (m : Connections) (as : List α) :
    as.foldlM step m = m.merge <$> as.foldlM step empty := by
  rw [foldlM_addPairs h, foldlM_addPairs h, Functor.map_map]
  refine congrArg (· <$> _) (funext fun ess => ?_)
  rw [merge_addPairs, merge_empty]

/-- **Work that is divided adds the same in the end**, or fails with the first failure of it all. -/
theorem foldl_merge_mapM {ε α : Type} {step : Connections → α → Except ε Connections}
    {additions : α → Except ε (List (Key × Target))}
    (h : ∀ m a, step m a = m.addPairs <$> additions a) (m : Connections) (parts : List (List α)) :
    (·.foldl merge m) <$> parts.mapM (·.foldlM step empty) = parts.flatten.foldlM step m := by
  induction parts generalizing m with
  | nil => rfl
  | cons part parts ih =>
    rw [List.mapM_cons, List.flatten_cons, List.foldlM_append, foldlM_eq_merge h m part]
    cases part.foldlM step empty with
    | error e => rfl
    | ok n =>
      change _ = parts.flatten.foldlM step (m.merge n)
      rw [← ih]
      cases parts.mapM (·.foldlM step empty) <;> rfl

/-- **The entries at a tile are those of a map that holds just them.** -/
theorem atTile_eq_toList {t : Tile}
    (h : ∀ k, n.targetsOf k = if k.tile = t then m.targetsOf k else []) :
    m.atTile t = n.toList := by
  have htargets : n.targets = m.targets.filter fun k _ => k.tile = t := by
    refine Std.ExtTreeMap.ext_getElem? fun k => ?_
    rw [Std.ExtTreeMap.getElem?_filter']
    change n.get? k = (m.get? k).filter _
    rw [get?_eq n, get?_eq m, h]
    by_cases htile : k.tile = t <;> by_cases hnil : m.targetsOf k = [] <;>
      simp [htile, hnil, Option.filter]
  rw [atTile, toList, toList, htargets, Std.ExtTreeMap.toList_filter]

end Connections

end FpgaRouting
