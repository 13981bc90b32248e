import FpgaRouting.Proofs.Formula.Infix

/-!
# Proofs/Formula/Acceptance — which texts are formulas

    expr  ::=  term  |  expr ('+' | '-') term      run     ::=  (empty)  |  run factor
    term  ::=  run   |  term ('*' | '/') run       factor  ::=  number | 'W' | 't' | '(' expr ')'

The parser looks at brackets and at the arity of the postfix program only, so it reads a wider
grammar than that of infix expressions: where the latter has a factor, this one has a **run** of any
number of factors side by side.  Every token list with matching brackets is a `Loose` phrase, and
it is accepted when, factor by factor, **each operator finds two operands and one is left in the
end** (`exists_parse_iff_loose`).  It is an infix expression if each run is a single factor; but
`t t +` is accepted too.
-/

namespace FpgaRouting.Formula

/-- The phrases of the wider grammar. -/
inductive LoosePhrase
  | expr
  | term
  | run
  | factor

/-- Syntax trees of the wider grammar. -/
inductive Loose : LoosePhrase → Type
  | atom (a : Atom) : Loose .factor
  | bracket (e : Loose .expr) : Loose .factor
  | nothing : Loose .run
  | beside (r : Loose .run) (f : Loose .factor) : Loose .run
  | run (r : Loose .run) : Loose .term
  | product (left : Loose .term) (o : Op) (ho : o = .mul ∨ o = .div) (right : Loose .run) :
      Loose .term
  | term (t : Loose .term) : Loose .expr
  | sum (left : Loose .expr) (o : Op) (ho : o = .add ∨ o = .sub) (right : Loose .term) :
      Loose .expr

/-- The number of operands after an operator that finds `depth` of them. -/
def applied (depth : Nat) : Option Nat := if depth < 2 then none else some (depth - 1)

namespace Loose

/-- The tokens of a tree. -/
def tokens : {p : LoosePhrase} → Loose p → List Token
  | _, .atom a => [.atom a]
  | _, .bracket e => .leftBracket :: e.tokens ++ [.rightBracket]
  | _, .nothing => []
  | _, .beside r f => r.tokens ++ f.tokens
  | _, .run r => r.tokens
  | _, .product left o _ right => left.tokens ++ .op o :: right.tokens
  | _, .term t => t.tokens
  | _, .sum left o _ right => left.tokens ++ .op o :: right.tokens

/-- The tree in postfix order. -/
def postfixForm : {p : LoosePhrase} → Loose p → List Step
  | _, .atom a => [.push a]
  | _, .bracket e => e.postfixForm
  | _, .nothing => []
  | _, .beside r f => r.postfixForm ++ f.postfixForm
  | _, .run r => r.postfixForm
  | _, .product left o _ right => left.postfixForm ++ right.postfixForm ++ [.apply o]
  | _, .term t => t.postfixForm
  | _, .sum left o _ right => left.postfixForm ++ right.postfixForm ++ [.apply o]

/-- **The number of operands a tree leaves** when there were `depth` before it: an atom adds one,
and an operator takes two and adds one.  None if an operator finds fewer than two. -/
def effect : {p : LoosePhrase} → Loose p → Nat → Option Nat
  | _, .atom _, depth => some (depth + 1)
  | _, .bracket e, depth => e.effect depth
  | _, .nothing, depth => some depth
  | _, .beside r f, depth => (r.effect depth).bind f.effect
  | _, .run r, depth => r.effect depth
  | _, .product left _ _ right, depth => ((left.effect depth).bind right.effect).bind applied
  | _, .term t, depth => t.effect depth
  | _, .sum left _ _ right, depth => ((left.effect depth).bind right.effect).bind applied

/-- **Every run is a single factor.** -/
def Strict : {p : LoosePhrase} → Loose p → Prop
  | _, .atom _ => True
  | _, .bracket e => e.Strict
  | _, .nothing => False
  | _, .beside r f => r = .nothing ∧ f.Strict
  | _, .run r => r.Strict
  | _, .product left _ _ right => left.Strict ∧ right.Strict
  | _, .term t => t.Strict
  | _, .sum left _ _ right => left.Strict ∧ right.Strict

end Loose

/-- **A token list that an infix expression has.** -/
def Derivable (ts : List Token) : Prop := ∃ e : Infix .expr, e.tokens = ts

/-! ## Strict trees are infix expressions -/

/-- The phrase of an infix expression that a strict phrase is. -/
def LoosePhrase.infixPhrase : LoosePhrase → Phrase
  | .expr => .expr
  | .term => .term
  | .run => .factor
  | .factor => .factor

/-- The phrase of the wider grammar that a phrase is. -/
def Phrase.loose : Phrase → LoosePhrase
  | .expr => .expr
  | .term => .term
  | .factor => .factor

theorem Loose.Strict.exists_infix {p : LoosePhrase} {e : Loose p} (h : e.Strict) :
    ∃ e' : Infix p.infixPhrase, e'.tokens = e.tokens := by
  induction e with
  | atom a => exact ⟨.atom a, rfl⟩
  | bracket e ih =>
    obtain ⟨e', he⟩ := ih h
    exact ⟨.bracket e', congrArg (Token.leftBracket :: · ++ [.rightBracket]) he⟩
  | nothing => exact absurd h not_false
  | beside r f _ ih =>
    obtain ⟨rfl, hf⟩ := h
    exact ih hf
  | run r ih =>
    obtain ⟨f, hf⟩ := ih h
    exact ⟨.factor f, hf⟩
  | product left o ho right ihl ihr =>
    obtain ⟨l, hl⟩ := ihl h.1
    obtain ⟨r, hr⟩ := ihr h.2
    exact ⟨.product l o ho r, congrArg₂ (· ++ Token.op o :: ·) hl hr⟩
  | term t ih =>
    obtain ⟨t', ht⟩ := ih h
    exact ⟨.term t', ht⟩
  | sum left o ho right ihl ihr =>
    obtain ⟨l, hl⟩ := ihl h.1
    obtain ⟨r, hr⟩ := ihr h.2
    exact ⟨.sum l o ho r, congrArg₂ (· ++ Token.op o :: ·) hl hr⟩

theorem Infix.exists_loose {p : Phrase} (e : Infix p) :
    ∃ e' : Loose p.loose, e'.Strict ∧ e'.tokens = e.tokens := by
  induction e with
  | atom a => exact ⟨.atom a, trivial, rfl⟩
  | bracket e ih =>
    obtain ⟨e', hs, he⟩ := ih
    exact ⟨.bracket e', hs, congrArg (Token.leftBracket :: · ++ [.rightBracket]) he⟩
  | factor f ih =>
    obtain ⟨f', hs, hf⟩ := ih
    exact ⟨.run (.beside .nothing f'), ⟨rfl, hs⟩, hf⟩
  | product left o ho right ihl ihr =>
    obtain ⟨l, hsl, hl⟩ := ihl
    obtain ⟨r, hsr, hr⟩ := ihr
    exact ⟨.product l o ho (.beside .nothing r), ⟨hsl, rfl, hsr⟩,
      congrArg₂ (· ++ Token.op o :: ·) hl hr⟩
  | term t ih =>
    obtain ⟨t', hs, ht⟩ := ih
    exact ⟨.term t', hs, ht⟩
  | sum left o ho right ihl ihr =>
    obtain ⟨l, hsl, hl⟩ := ihl
    obtain ⟨r, hsr, hr⟩ := ihr
    exact ⟨.sum l o ho r, ⟨hsl, hsr⟩, congrArg₂ (· ++ Token.op o :: ·) hl hr⟩

theorem derivable_iff_strict {ts : List Token} :
    Derivable ts ↔ ∃ e : Loose .expr, e.tokens = ts ∧ e.Strict := by
  constructor
  · rintro ⟨e, rfl⟩
    obtain ⟨e', hs, he⟩ := e.exists_loose
    exact ⟨e', he, hs⟩
  · rintro ⟨e, rfl, hs⟩
    exact hs.exists_infix

/-! ## The program of a loose phrase -/

namespace Loose

variable {p : LoosePhrase}

/-- The least precedence of an operator that stands outside all brackets of a phrase. -/
def level : LoosePhrase → Nat
  | .expr => 2
  | .term => 3
  | .run => 4
  | .factor => 4

theorem ordered (e : Loose p) : Ordered (level p) e.tokens e.postfixForm := by
  induction e with
  | atom a => exact Ordered.atom 4 a
  | bracket e ih => exact ih.bracket 4
  | nothing => exact Ordered.nil 4
  | beside r f ihr ihf => exact ihr.append ihf
  | run r ih => exact ih.mono (by decide)
  | term t ih => exact ih.mono (by decide)
  | product left o ho right ihl ihr => exact Ordered.operator (Infix.precedence_product ho) ihl ihr
  | sum left o ho right ihl ihr => exact Ordered.operator (Infix.precedence_sum ho) ihl ihr

end Loose

/-- Counting goes on from a known number of operands, or has failed before. -/
def depthFrom (steps : List Step) : Option Nat → Except Cause Nat
  | none => .error .missingOperand
  | some depth => depthAfter depth steps

theorem depthFrom_apply (o : Op) (steps : List Step) (depth? : Option Nat) :
    depthFrom (.apply o :: steps) depth? = depthFrom steps (depth?.bind applied) := by
  cases depth? with
  | none => rfl
  | some depth =>
    by_cases h : depth < 2 <;> simp [depthFrom, depthAfter, applied, h]

/-- **A postfix program counts as its tree does**, whatever follows. -/
theorem Loose.depthFrom_postfixForm {p : LoosePhrase} (e : Loose p) (depth? : Option Nat)
    (steps : List Step) :
    depthFrom (e.postfixForm ++ steps) depth? = depthFrom steps (depth?.bind e.effect) := by
  induction e generalizing depth? steps with
  | atom a => cases depth? <;> rfl
  | bracket e ih => exact ih depth? steps
  | nothing => cases depth? <;> rfl
  | beside r f ihr ihf =>
    rw [postfixForm, List.append_assoc, ihr, ihf, Option.bind_assoc]
    rfl
  | run r ih => exact ih depth? steps
  | term t ih => exact ih depth? steps
  | product left o ho right ihl ihr | sum left o ho right ihl ihr =>
    rw [postfixForm, List.append_assoc, List.append_assoc, ihl, ihr, List.singleton_append,
      depthFrom_apply, Option.bind_assoc, Option.bind_assoc]
    simp only [effect, Option.bind_assoc]

theorem Loose.depthAfter_postfixForm {p : LoosePhrase} (e : Loose p) :
    depthAfter 0 e.postfixForm = depthFrom [] (e.effect 0) := by
  have h := e.depthFrom_postfixForm (some 0) []
  rwa [List.append_nil] at h

/-! ## Matching brackets -/

/-- **The brackets of a token list match**, when `opened` have been opened before it. -/
def Closes (opened : Nat) : List Token → Prop
  | [] => opened = 0
  | .leftBracket :: ts => Closes (opened + 1) ts
  | .rightBracket :: ts => 0 < opened ∧ Closes (opened - 1) ts
  | .atom _ :: ts => Closes opened ts
  | .op _ :: ts => Closes opened ts

theorem count_releaseFor (o : Op) (held : List Held) :
    (releaseFor o held).2.count .bracket = held.count .bracket := by
  induction held with
  | nil => rfl
  | cons h held ih =>
    cases h with
    | bracket => rfl
    | op top =>
      rw [releaseFor]
      split_ifs
      · rw [List.count_cons_of_ne (by simp)]
        exact ih
      · rfl

theorem releaseBracket_eq_none_iff {held : List Held} :
    releaseBracket held = none ↔ held.count .bracket = 0 := by
  induction held with
  | nil => simp [releaseBracket]
  | cons h held ih => cases h <;> simp [releaseBracket, ih]

theorem count_releaseBracket {held rest : List Held} {steps : List Step}
    (h : releaseBracket held = some (steps, rest)) :
    held.count .bracket = rest.count .bracket + 1 := by
  induction held generalizing steps with
  | nil => simp [releaseBracket] at h
  | cons t held ih =>
    cases t with
    | bracket =>
      obtain ⟨-, rfl⟩ : [] = steps ∧ held = rest := by simpa [releaseBracket] using h
      simp
    | op o =>
      simp only [releaseBracket, Option.map_eq_some_iff, Prod.mk.injEq, Prod.exists] at h
      obtain ⟨steps', rest', h', -, rfl⟩ := h
      rw [List.count_cons_of_ne (by simp)]
      exact ih h'

theorem releaseAll_isSome_iff {held : List Held} :
    (releaseAll held).isSome ↔ held.count .bracket = 0 := by
  induction held with
  | nil => simp [releaseAll]
  | cons h held ih => cases h <;> simp [releaseAll, ih]

/-- **Tokens can be put in order exactly when their brackets match.** -/
theorem order_isSome_iff_closes {held : List Held} {ts : List Token} :
    (order held ts).isSome ↔ Closes (held.count .bracket) ts := by
  induction ts generalizing held with
  | nil => exact releaseAll_isSome_iff
  | cons t ts ih =>
    cases t with
    | atom a => simpa [order, Closes] using ih
    | op o =>
      have h := @ih (.op o :: (releaseFor o held).2)
      rw [List.count_cons_of_ne (by simp), count_releaseFor] at h
      simpa [order, Closes] using h
    | leftBracket =>
      have h := @ih (.bracket :: held)
      rw [List.count_cons_self] at h
      exact h
    | rightBracket =>
      cases hr : releaseBracket held with
      | none =>
        have hcount := releaseBracket_eq_none_iff.mp hr
        simp [order, Closes, hr, hcount]
      | some r =>
        obtain ⟨steps, rest⟩ := r
        have hcount := count_releaseBracket hr
        simpa [order, Closes, hr, hcount] using @ih rest

/-! ## Every token list with matching brackets is a loose phrase -/

namespace Loose

theorem exists_append_factor (e : Loose .expr) (f : Loose .factor) :
    ∃ e' : Loose .expr, e'.tokens = e.tokens ++ f.tokens := by
  have hterm : ∀ t : Loose .term, ∃ t' : Loose .term, t'.tokens = t.tokens ++ f.tokens := by
    intro t
    cases t with
    | run r => exact ⟨.run (.beside r f), rfl⟩
    | product left o ho right => exact ⟨.product left o ho (.beside right f), by simp [tokens]⟩
  cases e with
  | term t =>
    obtain ⟨t', ht⟩ := hterm t
    exact ⟨.term t', ht⟩
  | sum left o ho right =>
    obtain ⟨t', ht⟩ := hterm right
    exact ⟨.sum left o ho t', by simp [tokens, ht]⟩

theorem exists_append_op (e : Loose .expr) (o : Op) :
    ∃ e' : Loose .expr, e'.tokens = e.tokens ++ [.op o] := by
  by_cases ho : o = .add ∨ o = .sub
  · exact ⟨.sum e o ho (.run .nothing), by simp [tokens]⟩
  · have ho' : o = .mul ∨ o = .div := by cases o <;> simp_all
    cases e with
    | term t => exact ⟨.term (.product t o ho' .nothing), by simp [tokens]⟩
    | sum left p hp right =>
      exact ⟨.sum left p hp (.product right o ho' .nothing), by simp [tokens]⟩

/-- The tokens read so far: the expression in each open bracket, the innermost first. -/
def openTokens (e : Loose .expr) : List (Loose .expr) → List Token
  | [] => e.tokens
  | outer :: outers => openTokens outer outers ++ .leftBracket :: e.tokens

theorem openTokens_append {e e' : Loose .expr} {ts : List Token} (h : e'.tokens = e.tokens ++ ts)
    (outers : List (Loose .expr)) : openTokens e' outers = openTokens e outers ++ ts := by
  cases outers with
  | nil => exact h
  | cons outer outers => simp [openTokens, h]

theorem exists_of_closes {ts : List Token} (e : Loose .expr) (outers : List (Loose .expr))
    (h : Closes outers.length ts) : ∃ e' : Loose .expr, e'.tokens = openTokens e outers ++ ts := by
  induction ts generalizing e outers with
  | nil =>
    obtain rfl := List.length_eq_zero_iff.mp h
    exact ⟨e, (List.append_nil _).symm⟩
  | cons t ts ih =>
    cases t with
    | atom a =>
      obtain ⟨e₁, h₁⟩ := e.exists_append_factor (.atom a)
      obtain ⟨e', h'⟩ := ih e₁ outers h
      exact ⟨e', by rw [h', openTokens_append h₁, tokens, List.append_assoc]; rfl⟩
    | op o =>
      obtain ⟨e₁, h₁⟩ := e.exists_append_op o
      obtain ⟨e', h'⟩ := ih e₁ outers h
      exact ⟨e', by rw [h', openTokens_append h₁, List.append_assoc]; rfl⟩
    | leftBracket =>
      obtain ⟨e', h'⟩ := ih (.term (.run .nothing)) (e :: outers) h
      exact ⟨e', by rw [h', openTokens]; simp [tokens]⟩
    | rightBracket =>
      obtain ⟨hpos, h⟩ := h
      cases outers with
      | nil => exact absurd hpos (Nat.lt_irrefl 0)
      | cons outer outers =>
        obtain ⟨e₁, h₁⟩ := outer.exists_append_factor (.bracket e)
        obtain ⟨e', h'⟩ := ih e₁ outers h
        exact ⟨e', by rw [h', openTokens_append h₁, openTokens]; simp [tokens]⟩

/-- **A token list with matching brackets is a loose expression.** -/
theorem exists_of_order {ts : List Token} {steps : List Step} (h : order [] ts = some steps) :
    ∃ e : Loose .expr, e.tokens = ts :=
  exists_of_closes (.term (.run .nothing)) []
    (order_isSome_iff_closes.mp (Option.isSome_iff_exists.mpr ⟨steps, h⟩))

end Loose

/-! ## What the parser accepts -/

/-- What the number of operands that a program leaves says about it. -/
def verdict (program : List Step) : Option Nat → Except Cause (List Step)
  | none => .error .missingOperand
  | some 0 => .error .empty
  | some 1 => .ok program
  | some (_ + 2) => .error .trailingOperand

theorem verdict_eq_ok_iff {program steps : List Step} {depth : Option Nat} :
    verdict program depth = .ok steps ↔ depth = some 1 ∧ program = steps := by
  rcases depth with _ | _ | _ | n <;> simp [verdict]

/-- Each refusal stands for one way to count. -/
theorem cases_of_verdict_eq_error {program : List Step} {depth : Option Nat} {cause : Cause}
    (h : verdict program depth = .error cause) :
    (cause = .missingOperand ∧ depth = none) ∨ (cause = .empty ∧ depth = some 0) ∨
      (cause = .trailingOperand ∧ ∃ n, depth = some (n + 2)) := by
  rcases depth with _ | _ | _ | n <;> simp only [verdict, Except.error.injEq, reduceCtorEq] at h <;>
    simp [← h]

theorem mem_of_verdict_eq_error {program : List Step} {depth : Option Nat} {cause : Cause}
    (h : verdict program depth = .error cause) :
    cause ∈ [.missingOperand, .trailingOperand, .empty] := by
  obtain ⟨rfl, -⟩ | ⟨rfl, -⟩ | ⟨rfl, -⟩ := cases_of_verdict_eq_error h <;> simp

/-- **A loose expression is judged by the operands it leaves.** -/
theorem compile_of_loose {e : Loose .expr} {text : String} (h : tokens text = .ok e.tokens) :
    compile text = verdict e.postfixForm (e.effect 0) := by
  rw [compile, h]
  simp only [bind, Except.bind, order_of_ordered e.ordered, arity, e.depthAfter_postfixForm]
  rcases e.effect 0 with _ | _ | _ | n <;> rfl

theorem compile_of_order_eq_none {ts : List Token} {text : String} (h : tokens text = .ok ts)
    (ho : order [] ts = none) : compile text = .error .mismatchedBrackets := by
  rw [compile, h]
  simp only [bind, Except.bind, ho]

/-- **The last token of an infix expression is no operator.** -/
theorem Infix.exists_last_token {p : Phrase} (e : Infix p) :
    ∃ (ts : List Token) (t : Token), e.tokens = ts ++ [t] ∧ ∀ o, t ≠ .op o := by
  induction e with
  | atom a => exact ⟨[], .atom a, rfl, by simp⟩
  | bracket e _ => exact ⟨.leftBracket :: e.tokens, .rightBracket, rfl, by simp⟩
  | factor f ih => exact ih
  | term t ih => exact ih
  | product left o ho right _ ih | sum left o ho right _ ih =>
    obtain ⟨ts, t, hts, ht⟩ := ih
    exact ⟨left.tokens ++ .op o :: ts, t, by simp [tokens, hts], ht⟩

theorem parse_eq_ok_iff {text : String} :
    (∃ f, parse text = .ok f) ↔ ∃ program, compile text = .ok program := by
  rw [parse]
  cases compile text <;> simp

theorem cause_of_parse {text : String} {e : Error} (h : parse text = .error e) :
    e.text = text ∧ compile text = .error e.cause := by
  rw [parse] at h
  cases hc : compile text with
  | ok program => simp [hc] at h
  | error cause =>
    rw [hc] at h
    obtain rfl : (⟨text, cause⟩ : Error) = e := by simpa using h
    exact ⟨rfl, rfl⟩

/-- **A text is a formula exactly if it spells a loose expression that leaves one operand.**  Any
other token list is refused for its brackets or for the number of its operands.  Every infix
expression is a formula, and a formula is infix exactly if it is a loose expression in which each
run is a single factor. -/
theorem exists_parse_iff_loose (text : String) :
    ((∃ f, parse text = .ok f)
      ↔ ∃ e : Loose .expr, tokens text = .ok e.tokens ∧ e.effect 0 = some 1) ∧
    ∀ ts, tokens text = .ok ts →
      (∀ e, parse text = .error e → e.text = text ∧
        e.cause ∈ [.mismatchedBrackets, .missingOperand, .trailingOperand, .empty]) ∧
      (Derivable ts → ∃ f, parse text = .ok f) ∧
      (Derivable ts ↔ ∃ e : Loose .expr, e.tokens = ts ∧ e.Strict) := by
  refine ⟨⟨fun hparse => ?_, ?_⟩, fun ts htokens => ⟨fun err herr => ?_, fun hder => ?_,
    derivable_iff_strict⟩⟩
  · obtain ⟨program, hcompile⟩ := parse_eq_ok_iff.mp hparse
    cases htokens : tokens text with
    | error cause => simp [compile, htokens, bind, Except.bind] at hcompile
    | ok ts =>
      cases horder : order [] ts with
      | none => rw [compile_of_order_eq_none htokens horder] at hcompile; cases hcompile
      | some steps =>
        obtain ⟨e, rfl⟩ := Loose.exists_of_order horder
        rw [compile_of_loose htokens] at hcompile
        exact ⟨e, rfl, (verdict_eq_ok_iff.mp hcompile).1⟩
  · rintro ⟨e, htokens, heffect⟩
    refine parse_eq_ok_iff.mpr ⟨e.postfixForm, ?_⟩
    rw [compile_of_loose htokens, heffect]
    rfl
  · obtain ⟨htext, hcause⟩ := cause_of_parse herr
    refine ⟨htext, ?_⟩
    cases horder : order [] ts with
    | none =>
      rw [compile_of_order_eq_none htokens horder] at hcause
      exact Except.error.inj hcause ▸ List.mem_cons_self
    | some steps =>
      obtain ⟨e, rfl⟩ := Loose.exists_of_order horder
      rw [compile_of_loose htokens] at hcause
      exact List.mem_cons_of_mem _ (mem_of_verdict_eq_error hcause)
  · obtain ⟨e, rfl⟩ := hder
    exact ⟨_, parse_of_tokens htokens⟩

/-- **Not every formula is infix**: an operator may stand behind its operands. -/
theorem not_forall_parse_derivable :
    ¬ ∀ (text : String) (f : Formula), parse text = .ok f →
      ∃ ts, tokens text = .ok ts ∧ Derivable ts := by
  intro h
  obtain ⟨ts, hts, e, he⟩ :=
    h "t t +" ⟨"t t +", [.push .track, .push .track, .apply .add]⟩ (by decide)
  have htokens : tokens "t t +" = .ok [.atom .track, .atom .track, .op .add] := by decide
  rw [htokens] at hts
  obtain ⟨us, t, hus, ht⟩ := e.exists_last_token
  rw [he, ← Except.ok.inj hts] at hus
  have hlast : (Token.op .add) = t := by
    simpa using congrArg List.getLast? hus
  exact ht .add hlast.symm

end FpgaRouting.Formula
