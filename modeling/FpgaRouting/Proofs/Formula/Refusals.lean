import FpgaRouting.Proofs.Formula.Acceptance

/-!
# Proofs/Formula/Refusals — why a text is refused

      tokens       brackets     operands  operators
      t ) + ( W    unbalanced                          mismatched brackets
      ( ) ( )      balanced         0         0        empty
      ( t + ) * W  balanced         2         2        an operand is missing
      t ( t 3 ) -  balanced         3         1        an operand is left over

The parser reorders the tokens before it counts, so its report is first of all one about brackets.
A token list whose brackets match is a tree of the wider grammar, and an operator takes two operands
of it and leaves one: **what a tree leaves is what its operands outnumber its operators by**
(`Loose.operands_of_effect`), if no operator fell short.  Hence each report can be told from counts
alone (`parse_of_counts`).
-/

namespace FpgaRouting.Formula

/-! ## Counts -/

/-- The number of operands of a token list. -/
def operands (ts : List Token) : Nat := ts.countP fun t => t matches .atom _

/-- The number of operators of a token list. -/
def operators (ts : List Token) : Nat := ts.countP fun t => t matches .op _

@[simp] theorem operands_nil : operands [] = 0 := rfl

@[simp] theorem operators_nil : operators [] = 0 := rfl

@[simp] theorem operands_cons (t : Token) (ts : List Token) :
    operands (t :: ts) = (if t matches .atom _ then 1 else 0) + operands ts := by
  rw [operands, List.countP_cons, Nat.add_comm]
  rfl

@[simp] theorem operators_cons (t : Token) (ts : List Token) :
    operators (t :: ts) = (if t matches .op _ then 1 else 0) + operators ts := by
  rw [operators, List.countP_cons, Nat.add_comm]
  rfl

@[simp] theorem operands_append (ts us : List Token) :
    operands (ts ++ us) = operands ts + operands us := List.countP_append

@[simp] theorem operators_append (ts us : List Token) :
    operators (ts ++ us) = operators ts + operators us := List.countP_append

/-- **The brackets are unbalanced**: some front of the tokens closes more than it has opened, or
some bracket stays open. -/
def Unbalanced (ts : List Token) : Prop :=
  (∃ us ∈ ts.inits, us.count .leftBracket < us.count .rightBracket) ∨
    ts.count .rightBracket < ts.count .leftBracket

instance (ts : List Token) : Decidable (Unbalanced ts) := inferInstanceAs (Decidable (_ ∨ _))

/-! ## Brackets -/

/-- **Brackets match if no front closes more than has been opened**, and all of it does. -/
theorem closes_iff {opened : Nat} {ts : List Token} :
    Closes opened ts ↔
      (∀ us ∈ ts.inits, us.count .rightBracket ≤ opened + us.count .leftBracket) ∧
        opened + ts.count .leftBracket = ts.count .rightBracket := by
  induction ts generalizing opened with
  | nil => simp [Closes]
  | cons t ts ih =>
    cases t with
    | atom a => simp [Closes, ih]
    | op o => simp [Closes, ih]
    | leftBracket => simp [Closes, ih, Nat.add_assoc, Nat.add_comm 1]
    | rightBracket =>
      simp only [Closes, ih, List.inits_cons, List.forall_mem_cons, List.forall_mem_map,
        List.count_nil, List.count_cons_self, List.count_cons_of_ne, ne_eq, reduceCtorEq,
        not_false_eq_true]
      constructor
      · rintro ⟨hpos, hle, heq⟩
        exact ⟨⟨Nat.zero_le _, fun us hus => by have := hle us hus; omega⟩, by omega⟩
      · rintro ⟨⟨-, hle⟩, heq⟩
        -- The front that is this bracket alone closes something that was open.
        have hpos := hle [] ((List.mem_inits _ _).mpr List.nil_prefix)
        simp only [List.count_nil] at hpos
        exact ⟨by omega, fun us hus => by have := hle us hus; omega, by omega⟩

theorem unbalanced_iff {ts : List Token} : Unbalanced ts ↔ ¬ Closes 0 ts := by
  have hall : ts ∈ ts.inits := (List.mem_inits _ _).mpr List.prefix_rfl
  rw [closes_iff, not_and_or, not_forall, Unbalanced]
  simp only [not_forall, not_le, Nat.zero_add, exists_prop]
  by_cases hfront : ∃ us ∈ ts.inits, us.count .leftBracket < us.count .rightBracket
  · exact iff_of_true (.inl hfront) (.inl hfront)
  · have hle : ts.count .rightBracket ≤ ts.count .leftBracket := by
      by_contra hlt
      exact hfront ⟨ts, hall, not_le.mp hlt⟩
    simp only [hfront, false_or]
    omega

/-! ## What a tree leaves -/

namespace Loose

variable {p : LoosePhrase}

/-- An operator that is counted finds two operands and leaves one. -/
theorem exists_of_bind_applied {left right : Nat → Option Nat} {depth n : Nat}
    (h : ((left depth).bind right).bind applied = some n) :
    ∃ d d', left depth = some d ∧ right d = some d' ∧ 2 ≤ d' ∧ n + 1 = d' := by
  obtain ⟨d', hboth, hop⟩ := Option.bind_eq_some_iff.mp h
  obtain ⟨d, hl, hr⟩ := Option.bind_eq_some_iff.mp hboth
  rw [applied] at hop
  split_ifs at hop with hlt
  have hn : d' - 1 = n := Option.some.inj hop
  exact ⟨d, d', hl, hr, by omega, by omega⟩

/-- **A tree leaves as many more operands than there were as its operands outnumber its
operators.** -/
theorem operands_of_effect {e : Loose p} {depth n : Nat} (h : e.effect depth = some n) :
    n + operators e.tokens = depth + operands e.tokens := by
  induction e generalizing depth n with
  | atom a => simp_all [effect, tokens]
  | bracket e ih => simpa [tokens] using ih h
  | nothing => simp_all [effect, tokens]
  | run r ih => exact ih h
  | term t ih => exact ih h
  | beside r f ihr ihf =>
    obtain ⟨d, hr, hf⟩ := Option.bind_eq_some_iff.mp h
    have hr := ihr hr
    have hf := ihf hf
    simp only [tokens, operands_append, operators_append]
    omega
  | product left o ho right ihl ihr | sum left o ho right ihl ihr =>
    obtain ⟨d, d', hl, hr, -, hn⟩ := exists_of_bind_applied h
    have hl := ihl hl
    have hr := ihr hr
    simp only [tokens, operands_append, operators_append, operands_cons, operators_cons]
    simp only [if_true, if_false, Bool.false_eq_true]
    omega

/-- A tree of brackets alone leaves what there was. -/
theorem effect_of_bare {e : Loose p} (h : operands e.tokens + operators e.tokens = 0)
    (depth : Nat) : e.effect depth = some depth := by
  induction e generalizing depth with
  | atom a => simp [tokens] at h
  | bracket e ih => exact ih (by simpa [tokens] using h) depth
  | nothing => rfl
  | run r ih => exact ih h depth
  | term t ih => exact ih h depth
  | beside r f ihr ihf =>
    simp only [tokens, operands_append, operators_append] at h
    rw [effect, ihr (by omega), Option.bind_some, ihf (by omega)]
  | product left o ho right | sum left o ho right => simp [tokens] at h

/-- **A tree with an operand or an operator leaves an operand.** -/
theorem pos_of_effect {e : Loose p} {depth n : Nat} (h : e.effect depth = some n)
    (hpos : 0 < operands e.tokens + operators e.tokens) : 0 < n := by
  induction e generalizing depth n with
  | atom a =>
    obtain rfl : depth + 1 = n := Option.some.inj h
    exact Nat.succ_pos depth
  | bracket e ih => exact ih h (by simpa [tokens] using hpos)
  | nothing => simp [tokens] at hpos
  | run r ih => exact ih h hpos
  | term t ih => exact ih h hpos
  | beside r f ihr ihf =>
    obtain ⟨d, hr, hf⟩ := Option.bind_eq_some_iff.mp h
    simp only [tokens, operands_append, operators_append] at hpos
    rcases Nat.eq_zero_or_pos (operands f.tokens + operators f.tokens) with hbare | hf'
    · obtain rfl : d = n := Option.some.inj ((f.effect_of_bare hbare d).symm.trans hf)
      exact ihr hr (by omega)
    · exact ihf hf hf'
  | product left o ho right | sum left o ho right =>
    obtain ⟨d, d', -, -, htwo, hn⟩ := exists_of_bind_applied h
    omega

end Loose

/-! ## What is reported -/

theorem parse_eq_error_iff {text : String} {cause : Cause} :
    parse text = .error ⟨text, cause⟩ ↔ compile text = .error cause := by
  rw [parse]
  cases compile text <;> simp

/-- **The report of a text can be told from its brackets and counts.**  It is about brackets exactly
if they are unbalanced.  Otherwise the text is empty exactly if it has neither operands nor
operators; and if it has any, then an operand is missing whenever the operands do not outnumber the
operators, an operand is left over only if they do by two at least, and the text is a formula only
if they do by one. -/
theorem parse_of_counts {text : String} {ts : List Token} (h : tokens text = .ok ts) :
    (parse text = .error ⟨text, .mismatchedBrackets⟩ ↔ Unbalanced ts) ∧
    (¬ Unbalanced ts →
      (parse text = .error ⟨text, .empty⟩ ↔ operands ts = 0 ∧ operators ts = 0) ∧
      (0 < operands ts + operators ts →
        (operands ts ≤ operators ts → parse text = .error ⟨text, .missingOperand⟩) ∧
        (parse text = .error ⟨text, .trailingOperand⟩ → operators ts + 2 ≤ operands ts) ∧
        (∀ f, parse text = .ok f → operands ts = operators ts + 1))) := by
  have hcloses : (order [] ts).isSome ↔ ¬ Unbalanced ts := by
    rw [unbalanced_iff, not_not]
    exact order_isSome_iff_closes
  cases horder : order [] ts with
  | none =>
    have hunbalanced : Unbalanced ts := by simpa [horder] using hcloses
    refine ⟨iff_of_true ?_ hunbalanced, absurd hunbalanced⟩
    exact parse_eq_error_iff.mpr (compile_of_order_eq_none h horder)
  | some steps =>
    have hbalanced : ¬ Unbalanced ts := by simpa [horder] using hcloses
    obtain ⟨e, rfl⟩ := Loose.exists_of_order horder
    have hverdict := compile_of_loose h
    simp only [parse_eq_error_iff, hverdict]
    refine ⟨iff_of_false (fun hmismatched => ?_) hbalanced,
      fun _ => ⟨⟨fun hempty => ?_, fun hbare => ?_⟩,
        fun hpos => ⟨fun hle => ?_, fun htrailing => ?_, fun f hf => ?_⟩⟩⟩
    · simpa using mem_of_verdict_eq_error hmismatched
    · obtain ⟨-, heffect⟩ : Cause.empty = .empty ∧ e.effect 0 = some 0 := by
        simpa using cases_of_verdict_eq_error hempty
      by_contra hne
      exact absurd (Loose.pos_of_effect heffect (by omega)) (Nat.lt_irrefl 0)
    · rw [Loose.effect_of_bare (by omega) 0]
      rfl
    · cases heffect : e.effect 0 with
      | none => rfl
      | some n =>
        have hn := Loose.pos_of_effect heffect hpos
        have hcount := Loose.operands_of_effect heffect
        omega
    · obtain ⟨n, heffect⟩ : ∃ n, e.effect 0 = some (n + 2) := by
        simpa using cases_of_verdict_eq_error htrailing
      have hcount := Loose.operands_of_effect heffect
      omega
    · obtain ⟨program, hprogram⟩ := parse_eq_ok_iff.mp ⟨f, hf⟩
      rw [hverdict, verdict_eq_ok_iff] at hprogram
      have hcount := Loose.operands_of_effect hprogram.1
      omega

/-- An operator that lacks its right operand takes none from behind the bracket. -/
theorem parse_of_counts_bracketed : ∃ ts, tokens "(t +) * W" = .ok ts ∧ ¬ Unbalanced ts ∧
    operands ts = 2 ∧ operators ts = 2 ∧
    parse "(t +) * W" = .error ⟨"(t +) * W", .missingOperand⟩ := by
  have htokens : tokens "(t +) * W" = .ok [.leftBracket, .atom .track, .op .add, .rightBracket,
    .op .mul, .atom .width] := by decide
  have hbalanced : ¬ Unbalanced [.leftBracket, .atom .track, .op .add, .rightBracket, .op .mul,
    .atom .width] := by decide
  refine ⟨_, htokens, hbalanced, rfl, rfl, ?_⟩
  exact (((parse_of_counts htokens).2 hbalanced).2 (by decide)).1 (by decide)

end FpgaRouting.Formula
