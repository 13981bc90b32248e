import Mathlib
import FpgaRouting.Formula.Basic

/-!
# Proofs/Formula/Ordering — what is held back while tokens are put in postfix order

    tokens  W - t * 2           emitted  W t 2      held  * -
                └ read up to here ┘

When a phrase has been read, some of its operators may still be held: each of them binds at least
as tight as the phrase does, and whatever comes next releases them together.  `Ordered` says this
of a token list, **and is closed under the ways in which phrases are built**, so that an induction
on any grammar of phrases puts it in order (`order_of_ordered`).
-/

namespace FpgaRouting.Formula

/-- The topmost held operator, if no bracket hides it, binds weaker than a precedence. -/
def Below (n : Nat) (held : List Held) : Prop :=
  ∀ o, held.head? = some (.op o) → o.precedence < n

theorem below_nil (n : Nat) : Below n [] := by simp [Below]

theorem below_bracket (n : Nat) (held : List Held) : Below n (.bracket :: held) := by simp [Below]

theorem below_op {n : Nat} {o : Op} (h : o.precedence < n) (held : List Held) :
    Below n (.op o :: held) := by
  intro p hp
  obtain rfl : o = p := by simpa using hp
  exact h

theorem Below.mono {m n : Nat} {held : List Held} (h : Below m held) (hmn : m ≤ n) :
    Below n held :=
  fun o ho => lt_of_lt_of_le (h o ho) hmn

theorem Op.precedence_lt_four (o : Op) : o.precedence < 4 := by cases o <;> decide

/-! ## Releasing a pile of operators -/

theorem releaseFor_pile {o : Op} {pile : List Op} (hpile : ∀ p ∈ pile, o.precedence ≤ p.precedence)
    {held : List Held} (hbelow : Below o.precedence held) :
    releaseFor o (pile.map .op ++ held) = (pile.map .apply, held) := by
  induction pile with
  | nil =>
    match held with
    | [] => rfl
    | .bracket :: held => rfl
    | .op top :: held =>
      have htop : ¬ o.precedence ≤ top.precedence := not_le.mpr (hbelow top rfl)
      simp [releaseFor, htop]
  | cons p pile ih =>
    have hp : o.precedence ≤ p.precedence := hpile p (by simp)
    have hrest := ih fun q hq => hpile q (by simp [hq])
    simp only [List.map_cons, List.cons_append, releaseFor, if_pos hp, hrest]

theorem releaseBracket_pile (pile : List Op) (held : List Held) :
    releaseBracket (pile.map .op ++ .bracket :: held) = some (pile.map .apply, held) := by
  induction pile with
  | nil => rfl
  | cons p pile ih => simp [releaseBracket, ih]

theorem releaseAll_pile (pile : List Op) : releaseAll (pile.map .op) = some (pile.map .apply) := by
  induction pile with
  | nil => rfl
  | cons p pile ih => simp [releaseAll, ih]

/-! ## Phrases -/

/-- **The tokens `ts` are a phrase with the postfix form `steps`**, all of whose held operators
have at least the precedence `n`: read behind anything that binds weaker, they emit a part of it
and leave the rest as a pile of operators. -/
def Ordered (n : Nat) (ts : List Token) (steps : List Step) : Prop :=
  ∃ (emitted : List Step) (pile : List Op),
    steps = emitted ++ pile.map .apply ∧ (∀ o ∈ pile, n ≤ o.precedence) ∧
    ∀ held rest, Below n held →
      order held (ts ++ rest) = (order (pile.map .op ++ held) rest).map (emitted ++ ·)

namespace Ordered

/-- A phrase that binds tighter is one that binds weaker. -/
theorem mono {m n : Nat} {ts : List Token} {steps : List Step} (h : Ordered n ts steps)
    (hmn : m ≤ n) : Ordered m ts steps := by
  obtain ⟨emitted, pile, hsteps, hpile, horder⟩ := h
  exact ⟨emitted, pile, hsteps, fun o ho => hmn.trans (hpile o ho),
    fun held rest hheld => horder held rest (hheld.mono hmn)⟩

theorem nil (n : Nat) : Ordered n [] [] :=
  ⟨[], [], rfl, by simp, fun held rest _ => by simp⟩

theorem atom (n : Nat) (a : Atom) : Ordered n [.atom a] [.push a] :=
  ⟨[.push a], [], rfl, by simp, fun held rest _ => rfl⟩

/-- **Brackets release all that is held between them.** -/
theorem bracket {m : Nat} {ts : List Token} {steps : List Step} (h : Ordered m ts steps)
    (n : Nat) : Ordered n (.leftBracket :: ts ++ [.rightBracket]) steps := by
  obtain ⟨emitted, pile, rfl, -, horder⟩ := h
  refine ⟨emitted ++ pile.map .apply, [], by simp, by simp, fun held rest _ => ?_⟩
  have hopen := horder (.bracket :: held) (.rightBracket :: rest) (below_bracket m held)
  rw [List.cons_append, List.cons_append, List.append_assoc, List.singleton_append, order, hopen,
    order, releaseBracket_pile]
  simp [Function.comp_def]

/-- **No operator is held at precedence 4**, so that one such phrase may follow another. -/
theorem append {ts us : List Token} {steps tail : List Step} (h : Ordered 4 ts steps)
    (h' : Ordered 4 us tail) : Ordered 4 (ts ++ us) (steps ++ tail) := by
  obtain ⟨emitted, pile, rfl, hpile, horder⟩ := h
  obtain ⟨emitted', pile', rfl, hpile', horder'⟩ := h'
  have hnil : ∀ pile : List Op, (∀ o ∈ pile, 4 ≤ o.precedence) → pile = [] := fun pile h =>
    List.eq_nil_iff_forall_not_mem.mpr fun o ho => absurd (h o ho) (not_le.mpr o.precedence_lt_four)
  obtain rfl := hnil pile hpile
  obtain rfl := hnil pile' hpile'
  refine ⟨emitted ++ emitted', [], by simp, by simp, fun held rest hheld => ?_⟩
  rw [List.append_assoc, horder held _ hheld]
  simp only [List.map_nil, List.nil_append]
  rw [horder' held rest hheld]
  simp [Function.comp_def]

/-- **An operator associates to the left**: it releases its left operand, and is itself held while
the right operand, which binds tighter, is read. -/
theorem operator {n : Nat} {o : Op} {ts us : List Token} {left right : List Step}
    (hprec : o.precedence = n) (hleft : Ordered n ts left) (hright : Ordered (n + 1) us right) :
    Ordered n (ts ++ .op o :: us) (left ++ right ++ [.apply o]) := by
  subst hprec
  obtain ⟨emitted, pile, rfl, hpile, horder⟩ := hleft
  obtain ⟨emitted', pile', rfl, hpile', horder'⟩ := hright
  refine ⟨emitted ++ pile.map .apply ++ emitted', pile' ++ [o], by simp, ?_,
    fun held rest hheld => ?_⟩
  · intro p hp
    rcases List.mem_append.mp hp with hp | hp
    · exact (Nat.le_succ _).trans (hpile' p hp)
    · rw [List.mem_singleton.mp hp]
  · have hheld' : Below (o.precedence + 1) (.op o :: held) := below_op (Nat.lt_succ_self _) held
    rw [List.append_assoc, horder held _ hheld, List.cons_append, order,
      releaseFor_pile hpile hheld]
    simp only
    rw [horder' _ rest hheld']
    simp [Function.comp_def]

end Ordered

/-- **A phrase is put into its postfix form.** -/
theorem order_of_ordered {n : Nat} {ts : List Token} {steps : List Step} (h : Ordered n ts steps) :
    order [] ts = some steps := by
  obtain ⟨emitted, pile, rfl, -, horder⟩ := h
  have h' := horder [] [] (below_nil n)
  rw [List.append_nil, List.append_nil, order, releaseAll_pile] at h'
  exact h'

end FpgaRouting.Formula
