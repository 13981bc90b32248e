import Mathlib
import FpgaRouting.Failure

/-!
# Proofs/Outcome — steps that may fail

A list of steps succeeds when each of them does, and its result is then the list of theirs.  Where
every step is known to succeed with a value `g a`, **a loop over the steps is the plain loop over
`g`**, and nothing about failure is left in a proof.
-/

namespace FpgaRouting.Outcome

section

variable {ε α β γ : Type}

@[simp] theorem ok_bind (a : α) (f : α → Except ε β) : (Except.ok a >>= f) = f a := rfl

@[simp] theorem error_bind (e : ε) (f : α → Except ε β) :
    ((Except.error e : Except ε α) >>= f) = .error e := rfl

theorem bind_eq_ok_iff {x : Except ε α} {f : α → Except ε β} {b : β} :
    (x >>= f) = .ok b ↔ ∃ a, x = .ok a ∧ f a = .ok b := by
  cases x <;> simp

theorem bind_eq_error_iff {x : Except ε α} {f : α → Except ε β} {e : ε} :
    (x >>= f) = .error e ↔ x = .error e ∨ ∃ a, x = .ok a ∧ f a = .error e := by
  cases x <;> simp

theorem exists_eq_error_iff {x : Except ε α} : (∃ e, x = .error e) ↔ ∀ a, ¬ x = .ok a := by
  cases x <;> simp

theorem map_eq_ok_iff {x : Except ε α} {f : α → β} {b : β} :
    f <$> x = .ok b ↔ ∃ a, x = .ok a ∧ f a = b := by
  cases x <;> simp [Functor.map, Except.map]

theorem map_eq_error_iff {x : Except ε α} {f : α → β} {e : ε} :
    f <$> x = .error e ↔ x = .error e := by
  cases x <;> simp [Functor.map, Except.map]

theorem exists_map_eq_ok_iff {x : Except ε α} {f : α → β} :
    (∃ b, f <$> x = .ok b) ↔ ∃ a, x = .ok a := by
  simp [map_eq_ok_iff]

theorem mapM_congr {f g : α → Except ε β} {as : List α} (h : ∀ a ∈ as, f a = g a) :
    as.mapM f = as.mapM g := by
  induction as with
  | nil => rfl
  | cons a as ih =>
    rw [List.mapM_cons, List.mapM_cons, h a (by simp), ih fun b hb => h b (by simp [hb])]

theorem mapM_eq_ok {f : α → Except ε β} {g : α → β} {as : List α} (h : ∀ a ∈ as, f a = .ok (g a)) :
    as.mapM f = .ok (as.map g) :=
  (mapM_congr h).trans List.mapM_pure

theorem mapM_replicate (n : Nat) (b : β) :
    (List.replicate n (Except.ok b : Except ε β)).mapM id = .ok (List.replicate n b) := by
  have hall : ∀ o ∈ List.replicate n (Except.ok b : Except ε β), id o = .ok b := fun o ho =>
    List.eq_of_mem_replicate ho
  rw [mapM_eq_ok hall, List.map_replicate]

theorem mapM_eq_ok_iff {f : α → Except ε β} {as : List α} {bs : List β} :
    as.mapM f = .ok bs ↔ List.Forall₂ (fun a b => f a = .ok b) as bs := by
  induction as generalizing bs with
  | nil => simp [pure, Except.pure, eq_comm]
  | cons a as ih =>
    rw [List.mapM_cons, bind_eq_ok_iff]
    constructor
    · rintro ⟨b, hb, hrest⟩
      obtain ⟨bs', hbs', hcons⟩ := bind_eq_ok_iff.mp hrest
      obtain rfl : b :: bs' = bs := Except.ok.inj hcons
      exact List.Forall₂.cons hb (ih.mp hbs')
    · rintro (_ | ⟨hb, hrest⟩)
      exact ⟨_, hb, bind_eq_ok_iff.mpr ⟨_, ih.mpr hrest, rfl⟩⟩

theorem mapM_map_result (f : α → Except ε β) (g : β → γ) (as : List α) :
    (as.mapM fun a => g <$> f a) = List.map g <$> as.mapM f := by
  induction as with
  | nil => rfl
  | cons a as ih =>
    rw [List.mapM_cons, List.mapM_cons, ih]
    cases f a with
    | error e => rfl
    | ok b => cases as.mapM f <;> rfl

/-- Steps whose results are moved have their joined results moved. -/
theorem flatten_mapM_map {f : α → Except ε (List β)} {f' : α → Except ε (List γ)} {g : β → γ}
    {as : List α} (h : ∀ a ∈ as, f' a = List.map g <$> f a) :
    List.flatten <$> as.mapM f' = List.map g <$> List.flatten <$> as.mapM f := by
  rw [mapM_congr h, mapM_map_result, Functor.map_map, Functor.map_map]
  exact congrArg (· <$> _) (funext fun _ => List.map_flatten.symm)

theorem mapM_flatMap {f : α → Except ε β} {g : γ → List α} {cs : List γ} :
    (cs.flatMap g).mapM f = List.flatten <$> cs.mapM fun c => (g c).mapM f := by
  induction cs with
  | nil => rfl
  | cons c cs ih =>
    rw [List.flatMap_cons, List.mapM_append, List.mapM_cons, ih]
    cases (g c).mapM f with
    | error e => rfl
    | ok bs => cases cs.mapM fun c => (g c).mapM f <;> rfl

/-- **Steps that add what does not depend on the state** add it all in the end, unless one fails. -/
theorem foldlM_eq_map_flatten {step : γ → α → Except ε γ} {additions : α → Except ε (List β)}
    {add : γ → β → γ} (h : ∀ c a, step c a = (fun bs => bs.foldl add c) <$> additions a) (c : γ)
    (as : List α) :
    as.foldlM step c = (fun bss => bss.flatten.foldl add c) <$> as.mapM additions := by
  induction as generalizing c with
  | nil => rfl
  | cons a as ih =>
    rw [List.foldlM_cons, List.mapM_cons, h]
    cases additions a with
    | error e => rfl
    | ok bs =>
      change as.foldlM step (bs.foldl add c) = _
      rw [ih]
      cases as.mapM additions with
      | error e => rfl
      | ok bss => exact congrArg Except.ok List.foldl_append.symm

/-- **A list of steps succeeds if each of them does.** -/
theorem exists_mapM_eq_ok_iff {f : α → Except ε β} {as : List α} :
    (∃ bs, as.mapM f = .ok bs) ↔ ∀ a ∈ as, ∃ b, f a = .ok b := by
  induction as with
  | nil => exact ⟨fun _ _ h => (List.not_mem_nil h).elim, fun _ => ⟨[], rfl⟩⟩
  | cons a as ih =>
    rw [List.forall_mem_cons, ← ih]
    simp only [mapM_eq_ok_iff, List.forall₂_cons_left_iff]
    constructor
    · rintro ⟨_, b, bs, hb, hbs, rfl⟩
      exact ⟨⟨b, hb⟩, bs, hbs⟩
    · rintro ⟨⟨b, hb⟩, bs, hbs⟩
      exact ⟨_, b, bs, hb, hbs, rfl⟩

/-- Where success leaves one answer, a list of steps that succeeds has those answers. -/
theorem eq_map_of_mapM {f : α → Except ε β} {g : α → β} {as : List α} {bs : List β}
    (h : as.mapM f = .ok bs) (hf : ∀ a ∈ as, ∀ b, f a = .ok b → b = g a) : bs = as.map g := by
  have hall : ∀ a ∈ as, f a = .ok (g a) := by
    intro a ha
    obtain ⟨b, hb⟩ := exists_mapM_eq_ok_iff.mp ⟨bs, h⟩ a ha
    rw [hb, hf a ha b hb]
  exact Except.ok.inj (h.symm.trans (mapM_eq_ok hall))

theorem exists_of_mem_mapM {f : α → Except ε β} {as : List α} {bs : List β} {b : β}
    (h : as.mapM f = .ok bs) (hb : b ∈ bs) : ∃ a ∈ as, f a = .ok b := by
  rw [mapM_eq_ok_iff] at h
  induction h with
  | nil => simp at hb
  | cons ha _ ih =>
    rcases List.mem_cons.mp hb with rfl | hb
    · exact ⟨_, List.mem_cons_self, ha⟩
    · obtain ⟨a, hmem, ha⟩ := ih hb
      exact ⟨a, List.mem_cons_of_mem _ hmem, ha⟩

/-- **The results of a list of steps are those of its members.** -/
theorem mem_mapM_iff {f : α → Except ε β} {as : List α} {bs : List β} {b : β}
    (h : as.mapM f = .ok bs) : b ∈ bs ↔ ∃ a ∈ as, f a = .ok b := by
  refine ⟨exists_of_mem_mapM h, ?_⟩
  rintro ⟨a, ha, hb⟩
  rw [mapM_eq_ok_iff] at h
  induction h with
  | nil => simp at ha
  | cons hstep _ ih =>
    rcases List.mem_cons.mp ha with rfl | ha
    · obtain rfl := Except.ok.inj (hb.symm.trans hstep)
      exact List.mem_cons_self
    · exact List.mem_cons_of_mem _ (ih ha)

/-- **A list of steps fails with one of them.** -/
theorem exists_of_mapM_eq_error {f : α → Except ε β} {as : List α} {e : ε}
    (h : as.mapM f = .error e) : ∃ a ∈ as, f a = .error e := by
  induction as with
  | nil => simp [pure, Except.pure] at h
  | cons a as ih =>
    rw [List.mapM_cons] at h
    rcases bind_eq_error_iff.mp h with ha | ⟨b, -, hrest⟩
    · exact ⟨a, List.mem_cons_self, ha⟩
    · rcases bind_eq_error_iff.mp hrest with hrest | ⟨bs, -, hpure⟩
      · obtain ⟨a', ha', hfail⟩ := ih hrest
        exact ⟨a', List.mem_cons_of_mem _ ha', hfail⟩
      · simp [pure, Except.pure] at hpure

/-- **A fold of steps fails at one of them**, when all before it have succeeded. -/
theorem exists_split_of_foldlM_eq_error {f : β → α → Except ε β} {as : List α} {b : β} {e : ε}
    (h : as.foldlM f b = .error e) :
    ∃ done a rest b', as = done ++ a :: rest ∧ done.foldlM f b = .ok b' ∧ f b' a = .error e := by
  induction as generalizing b with
  | nil => simp [pure, Except.pure] at h
  | cons a as ih =>
    rw [List.foldlM_cons] at h
    rcases bind_eq_error_iff.mp h with ha | ⟨b₁, hb₁, hrest⟩
    · exact ⟨[], a, as, b, rfl, rfl, ha⟩
    · obtain ⟨done, a', rest, b', rfl, hdone, hfail⟩ := ih hrest
      refine ⟨a :: done, a', rest, b', rfl, ?_, hfail⟩
      rw [List.foldlM_cons, hb₁, ok_bind, hdone]

/-- A fold of steps fails with one of them. -/
theorem exists_of_foldlM_eq_error {f : β → α → Except ε β} {as : List α} {b : β} {e : ε}
    (h : as.foldlM f b = .error e) : ∃ b, ∃ a ∈ as, f b a = .error e := by
  obtain ⟨done, a, rest, b', rfl, -, hfail⟩ := exists_split_of_foldlM_eq_error h
  exact ⟨b', a, List.mem_append_right _ List.mem_cons_self, hfail⟩

/-- **What each step keeps true of a state and of the steps left to take** is true in the end. -/
theorem holds_of_foldlM {f : β → α → Except ε β} (I : List α → β → Prop)
    (hstep : ∀ a left b b', I (a :: left) b → f b a = .ok b' → I left b') {as : List α} {b b' : β}
    (h : as.foldlM f b = .ok b') (hb : I as b) : I [] b' := by
  induction as generalizing b with
  | nil =>
    obtain rfl := Except.ok.inj h
    exact hb
  | cons a as ih =>
    rw [List.foldlM_cons] at h
    obtain ⟨b₁, hb₁, hrest⟩ := bind_eq_ok_iff.mp h
    exact ih hrest (hstep a as b b₁ hb hb₁)

theorem foldlM_congr {f g : β → α → Except ε β} {as : List α} (h : ∀ a ∈ as, ∀ b, f b a = g b a)
    (b : β) : as.foldlM f b = as.foldlM g b := by
  induction as generalizing b with
  | nil => rfl
  | cons a as ih =>
    rw [List.foldlM_cons, List.foldlM_cons, h a (by simp)]
    exact congrArg _ (funext fun _ => ih (fun b hb => h b (by simp [hb])) _)

theorem filterAuxM_congr {f g : α → Except ε Bool} {as : List α} (h : ∀ a ∈ as, f a = g a)
    (acc : List α) : as.filterAuxM f acc = as.filterAuxM g acc := by
  induction as generalizing acc with
  | nil => rfl
  | cons a as ih =>
    rw [List.filterAuxM, List.filterAuxM, h a (by simp)]
    exact congrArg _ (funext fun _ => ih (fun b hb => h b (by simp [hb])) _)

theorem filterM_congr {f g : α → Except ε Bool} {as : List α} (h : ∀ a ∈ as, f a = g a) :
    as.filterM f = as.filterM g := by
  rw [List.filterM, List.filterM, filterAuxM_congr h]

theorem filterAuxM_eq_ok {f : α → Except ε Bool} {g : α → Bool} {as : List α}
    (h : ∀ a ∈ as, f a = .ok (g a)) (acc : List α) :
    as.filterAuxM f acc = .ok ((as.filter g).reverse ++ acc) := by
  induction as generalizing acc with
  | nil => rfl
  | cons a as ih =>
    rw [List.filterAuxM, h a List.mem_cons_self, ok_bind,
      ih fun b hb => h b (List.mem_cons_of_mem _ hb)]
    cases hg : g a <;> simp [hg]

theorem filterM_eq_ok {f : α → Except ε Bool} {g : α → Bool} {as : List α}
    (h : ∀ a ∈ as, f a = .ok (g a)) : as.filterM f = .ok (as.filter g) := by
  rw [List.filterM, filterAuxM_eq_ok h, ok_bind, List.append_nil]
  exact congrArg Except.ok (List.reverse_reverse _)

end

/-! ## Word arithmetic inside a build -/

@[simp] theorem liftM_ok {α : Type} (a : α) :
    (liftM (Except.ok a : Except Fault α) : Outcome α) = .ok a := rfl

@[simp] theorem liftM_error {α : Type} (fault : Fault) :
    (liftM (Except.error fault : Except Fault α) : Outcome α) = .error (.aborted fault) := rfl

theorem liftM_eq_ok_iff {α : Type} {x : Except Fault α} {a : α} :
    (liftM x : Outcome α) = .ok a ↔ x = .ok a := by
  cases x <;> simp

theorem ofWord_eq_ok_iff {α : Type} {x : Except Fault α} {a : α} :
    ofWord x = .ok a ↔ x = .ok a := by
  cases x <;> simp

theorem ofWord_map {α β : Type} (f : α → β) (x : Except Fault α) :
    ofWord (f <$> x) = f <$> ofWord x := by
  cases x <;> rfl

/-- **A check that has been passed leaves the rest.** -/
theorem check_eq_ok_iff {α : Type} {c : Prop} [Decidable c] {r : Refusal} {k : Unit → Outcome α}
    {a : α} : (if c then refuse r >>= k else k ()) = .ok a ↔ ¬ c ∧ k () = .ok a := by
  split_ifs with h <;> simp [h, refuse]

end FpgaRouting.Outcome
