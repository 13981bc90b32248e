import FpgaRouting.Proofs.Formula.Ordering
import FpgaRouting.Proofs.Formula.Spelling

/-!
# Proofs/Formula/Infix — infix expressions keep their meaning

    expr    ::=  term    |  expr ('+' | '-') term
    term    ::=  factor  |  term ('*' | '/') factor
    factor  ::=  number  |  'W'  |  't'  |  '(' expr ')'

`Infix` is the type of syntax trees of this grammar, and a tree is evaluated over the integers,
left operand before right operand.  A parsed formula computes the value of its tree, or **reports
the first operation, in that order, that divides by zero or leaves the signed words**
(`eval_parse_of_writes`).
-/

namespace FpgaRouting.Formula

/-- The phrases of the grammar. -/
inductive Phrase
  | expr
  | term
  | factor

/-- Syntax trees of infix expressions. -/
inductive Infix : Phrase → Type
  | atom (a : Atom) : Infix .factor
  | bracket (e : Infix .expr) : Infix .factor
  | factor (f : Infix .factor) : Infix .term
  | product (left : Infix .term) (o : Op) (ho : o = .mul ∨ o = .div) (right : Infix .factor) :
      Infix .term
  | term (t : Infix .term) : Infix .expr
  | sum (left : Infix .expr) (o : Op) (ho : o = .add ∨ o = .sub) (right : Infix .term) :
      Infix .expr

/-! ## The meaning of a tree -/

/-- The integer an operator yields when nothing bounds it.  Division goes toward zero. -/
def Op.exact (left right : Int) : Op → Int
  | .add => left + right
  | .sub => left - right
  | .mul => left * right
  | .div => left.tdiv right

/-- An operator together with its operands. -/
structure Operation where
  op : Op
  left : Int
  right : Int
deriving DecidableEq, Repr

/-- **What is wrong with an operation**: a divisor of zero, or else a result that is no signed
word. -/
def Operation.fault? (s : Operation) : Option Cause :=
  if s.op = .div ∧ s.right = 0 then some .divisionByZero
  else if Word.Signed (s.op.exact s.left s.right) then none
  else some .overflow

namespace Infix

/-- The integer a tree denotes when nothing bounds it. -/
def exact (b : Binding) : {p : Phrase} → Infix p → Int
  | _, .atom a => a.value b
  | _, .bracket e => e.exact b
  | _, .factor f => f.exact b
  | _, .product left o _ right => o.exact (left.exact b) (right.exact b)
  | _, .term t => t.exact b
  | _, .sum left o _ right => o.exact (left.exact b) (right.exact b)

/-- The operations of a tree with their exact operands, **in the order in which they are met**:
those of the left operand, those of the right operand, then the operator itself. -/
def operations (b : Binding) : {p : Phrase} → Infix p → List Operation
  | _, .atom _ => []
  | _, .bracket e => e.operations b
  | _, .factor f => f.operations b
  | _, .product left o _ right =>
    left.operations b ++ right.operations b ++ [⟨o, left.exact b, right.exact b⟩]
  | _, .term t => t.operations b
  | _, .sum left o _ right =>
    left.operations b ++ right.operations b ++ [⟨o, left.exact b, right.exact b⟩]

/-- The first fault of a tree, if any. -/
def fault? (b : Binding) {p : Phrase} (e : Infix p) : Option Cause :=
  (e.operations b).findSome? Operation.fault?

/-- **Evaluation of a tree**: both operands, the left one first, then the operator. -/
def value (b : Binding) : {p : Phrase} → Infix p → Except Cause Int
  | _, .atom a => .ok (a.value b)
  | _, .bracket e => e.value b
  | _, .factor f => f.value b
  | _, .product left o _ right => do o.apply (← left.value b) (← right.value b)
  | _, .term t => t.value b
  | _, .sum left o _ right => do o.apply (← left.value b) (← right.value b)

/-- The tokens of a tree. -/
def tokens : {p : Phrase} → Infix p → List Token
  | _, .atom a => [.atom a]
  | _, .bracket e => .leftBracket :: e.tokens ++ [.rightBracket]
  | _, .factor f => f.tokens
  | _, .product left o _ right => left.tokens ++ .op o :: right.tokens
  | _, .term t => t.tokens
  | _, .sum left o _ right => left.tokens ++ .op o :: right.tokens

/-- The tree in postfix order. -/
def postfixForm : {p : Phrase} → Infix p → List Step
  | _, .atom a => [.push a]
  | _, .bracket e => e.postfixForm
  | _, .factor f => f.postfixForm
  | _, .product left o _ right => left.postfixForm ++ right.postfixForm ++ [.apply o]
  | _, .term t => t.postfixForm
  | _, .sum left o _ right => left.postfixForm ++ right.postfixForm ++ [.apply o]

end Infix

/-! ## Exact values and faults

An operation succeeds exactly when it has no fault, and then yields the exact result; so up to the
first fault all values are exact. -/

theorem Op.apply_eq (o : Op) (left right : Int) :
    o.apply left right
      = match (⟨o, left, right⟩ : Operation).fault? with
        | some cause => .error cause
        | none => .ok (o.exact left right) := by
  cases o with
  | div =>
    by_cases hzero : right = 0
    · simp [Op.apply, Operation.fault?, hzero]
    · by_cases hfit : Word.Signed (left.tdiv right) <;>
        simp [Op.apply, Operation.fault?, checkResult, Op.exact, hzero, hfit]
  | add =>
    by_cases hfit : Word.Signed (left + right) <;>
      simp [Op.apply, Operation.fault?, checkResult, Op.exact, hfit]
  | sub =>
    by_cases hfit : Word.Signed (left - right) <;>
      simp [Op.apply, Operation.fault?, checkResult, Op.exact, hfit]
  | mul =>
    by_cases hfit : Word.Signed (left * right) <;>
      simp [Op.apply, Operation.fault?, checkResult, Op.exact, hfit]

namespace Infix

variable {p q : Phrase}

/-- The outcome of a tree whose first fault and exact value are known. -/
def outcome (fault : Option Cause) (exact : Int) : Except Cause Int :=
  match fault with
  | some cause => .error cause
  | none => .ok exact

/-- An operator runs when neither operand has a fault, and then its own fault counts. -/
theorem outcome_bind_apply (fl fr : Option Cause) (l r : Int) (o : Op) :
    (do o.apply (← outcome fl l) (← outcome fr r) : Except Cause Int)
      = outcome ((fl.or fr).or (⟨o, l, r⟩ : Operation).fault?) (o.exact l r) := by
  cases fl with
  | some cause => rfl
  | none =>
    cases fr with
    | some cause => rfl
    | none => exact Op.apply_eq o l r

theorem findSome?_append_singleton (ls rs : List Operation) (s : Operation) :
    (ls ++ rs ++ [s]).findSome? Operation.fault?
      = ((ls.findSome? Operation.fault?).or (rs.findSome? Operation.fault?)).or s.fault? := by
  rw [List.findSome?_append, List.findSome?_append, List.findSome?_singleton]

/-- **Evaluation yields the exact value, or the first fault in evaluation order.** -/
theorem value_eq_outcome (b : Binding) (e : Infix p) :
    e.value b = outcome (e.fault? b) (e.exact b) := by
  induction e with
  | atom a => rfl
  | bracket e ih => exact ih
  | factor f ih => exact ih
  | term t ih => exact ih
  | product left o ho right ihl ihr | sum left o ho right ihl ihr =>
    rw [value, ihl, ihr, outcome_bind_apply]
    exact congrArg (outcome · _) (findSome?_append_singleton _ _ _).symm

/-! ## The postfix form of a tree -/

/-- The least precedence of an operator that stands outside all brackets of a phrase. -/
def level : Phrase → Nat
  | .expr => 2
  | .term => 3
  | .factor => 4

theorem precedence_product {o : Op} (ho : o = .mul ∨ o = .div) : o.precedence = 3 := by
  rcases ho with rfl | rfl <;> rfl

theorem precedence_sum {o : Op} (ho : o = .add ∨ o = .sub) : o.precedence = 2 := by
  rcases ho with rfl | rfl <;> rfl

/-- **Each tree is a phrase in the sense of `Ordered`.** -/
theorem ordered (e : Infix p) : Ordered (level p) e.tokens e.postfixForm := by
  induction e with
  | atom a => exact Ordered.atom 4 a
  | bracket e ih => exact ih.bracket 4
  | factor f ih => exact ih.mono (by decide)
  | term t ih => exact ih.mono (by decide)
  | product left o ho right ihl ihr => exact Ordered.operator (precedence_product ho) ihl ihr
  | sum left o ho right ihl ihr => exact Ordered.operator (precedence_sum ho) ihl ihr

/-- A tree leaves one more operand than there was. -/
theorem depthAfter_postfixForm (e : Infix p) (depth : Nat) (steps : List Step) :
    depthAfter depth (e.postfixForm ++ steps) = depthAfter (depth + 1) steps := by
  induction e generalizing depth steps with
  | atom a => rfl
  | bracket e ih => exact ih depth steps
  | factor f ih => exact ih depth steps
  | term t ih => exact ih depth steps
  | product left o ho right ihl ihr | sum left o ho right ihl ihr =>
    rw [postfixForm, List.append_assoc, List.append_assoc, ihl, ihr, List.singleton_append,
      depthAfter, if_neg (by omega)]
    rfl

theorem arity_postfixForm (e : Infix p) : arity e.postfixForm = .ok () := by
  have h := e.depthAfter_postfixForm 0 []
  rw [List.append_nil] at h
  rw [arity, h]
  rfl

/-- **A postfix form runs like its tree**, whatever is on the stack and whatever follows. -/
theorem run_postfixForm (b : Binding) (e : Infix p) (stack : List Int) (steps : List Step) :
    run b stack (e.postfixForm ++ steps) = (do run b ((← e.value b) :: stack) steps) := by
  induction e generalizing stack steps with
  | atom a =>
    rw [postfixForm, List.singleton_append, run]
    rfl
  | bracket e ih => exact ih stack steps
  | factor f ih => exact ih stack steps
  | term t ih => exact ih stack steps
  | product left o ho right ihl ihr | sum left o ho right ihl ihr =>
    rw [postfixForm, List.append_assoc, List.append_assoc, ihl, value]
    simp only [ihr, List.singleton_append, run, bind_assoc]

theorem run_postfixForm_nil (b : Binding) (e : Infix p) : run b [] e.postfixForm = e.value b := by
  have h := e.run_postfixForm b [] []
  rw [List.append_nil] at h
  rw [h]
  cases e.value b <;> rfl

/-! ## Parsing a written tree -/

theorem apart_cons {t : Token} {ts : List Token} (hts : Apart ts)
    (ht : ∀ u ∈ ts.head?, ¬ (t.IsNumber ∧ u.IsNumber)) : Apart (t :: ts) :=
  List.isChain_cons.mpr ⟨ht, hts⟩

/-- Between any two operands of a tree stands an operator. -/
theorem apart_tokens_append (e : Infix p) {rest : List Token} (hrest : Apart rest)
    (hhead : ∀ u ∈ rest.head?, ¬ u.IsNumber) : Apart (e.tokens ++ rest) := by
  induction e generalizing rest with
  | atom a => exact apart_cons hrest fun u hu h => hhead u hu h.2
  | bracket e ih =>
    rw [tokens, List.cons_append, List.cons_append, List.append_assoc]
    refine apart_cons (ih (apart_cons hrest fun u _ h => h.1) ?_) fun u _ h => h.1
    simp [Token.IsNumber]
  | factor f ih => exact ih hrest hhead
  | term t ih => exact ih hrest hhead
  | product left o ho right ihl ihr | sum left o ho right ihl ihr =>
    rw [tokens, List.append_assoc, List.cons_append]
    exact ihl (apart_cons (ihr hrest hhead) fun u _ h => h.1) (by simp [Token.IsNumber])

theorem apart_tokens (e : Infix p) : Apart e.tokens := by
  have h := e.apart_tokens_append List.isChain_nil (by simp)
  rwa [List.append_nil] at h

end Infix

theorem parse_of_tokens {e : Infix .expr} {text : String} (h : tokens text = .ok e.tokens) :
    parse text = .ok ⟨text, e.postfixForm⟩ := by
  rw [parse, compile, h]
  simp only [bind, Except.bind, order_of_ordered e.ordered, e.arity_postfixForm]
  rfl

/-- **Parsing and evaluation keep the meaning of infix expressions.**  However a tree is written,
its text parses, and the formula evaluates as the tree does: to its exact value when no operation
has a fault, and to the first fault otherwise. -/
theorem eval_parse_of_writes {e : Infix .expr} {text : String}
    (hwrites : Writes e.tokens text.toList) (hfit : LiteralsFit e.tokens) :
    ∃ f, parse text = .ok f ∧ ∀ b : Binding,
      f.eval b = (e.value b).mapError (Error.mk text) ∧
      e.value b = match (e.operations b).findSome? Operation.fault? with
        | some cause => .error cause
        | none => .ok (e.exact b) := by
  have htokens : tokens text = .ok e.tokens := tokens_of_writes hwrites e.apart_tokens hfit
  refine ⟨_, parse_of_tokens htokens, fun b => ⟨?_, e.value_eq_outcome b⟩⟩
  rw [eval, e.run_postfixForm_nil]
  cases e.value b <;> rfl

/-- The tree of `7 / (t - 7)`. -/
def reciprocal : Infix .expr :=
  .term (.product (.factor (.atom (.number 7))) .div (.inr rfl)
    (.bracket (.sum (.term (.factor (.atom .track))) .sub (.inr rfl)
      (.factor (.atom (.number 7))))))

theorem eval_parse_of_writes_reciprocal : ∃ f, parse " 7/ (t-007)" = .ok f ∧
    f.eval ⟨0, 10⟩ = .ok 2 ∧ f.eval ⟨0, 7⟩ = .error ⟨" 7/ (t-007)", .divisionByZero⟩ := by
  have hwrites : Writes reciprocal.tokens " 7/ (t-007)".toList :=
    @Writes.cons [' '] ['7'] _ _ _ (by simp [IsBlank, Text.isBlank, Text.blankRanges])
      (@Lexeme.number ['7'] (by simp) (by simp)) <|
    @Writes.cons [] ['/'] _ _ _ (by simp [IsBlank]) .div <|
    @Writes.cons [' '] ['('] _ _ _ (by simp [IsBlank, Text.isBlank, Text.blankRanges])
      .leftBracket <|
    @Writes.cons [] ['t'] _ _ _ (by simp [IsBlank]) .track <|
    @Writes.cons [] ['-'] _ _ _ (by simp [IsBlank]) .sub <|
    @Writes.cons [] ['0', '0', '7'] _ _ _ (by simp [IsBlank])
      (@Lexeme.number ['0', '0', '7'] (by simp) (by simp)) <|
    @Writes.cons [] [')'] _ _ _ (by simp [IsBlank]) .rightBracket <|
    @Writes.nil [] (by simp [IsBlank])
  have hfit : LiteralsFit reciprocal.tokens := by
    simp [LiteralsFit, reciprocal, Infix.tokens, Word.half]
  obtain ⟨f, hf, heval⟩ := eval_parse_of_writes hwrites hfit
  refine ⟨f, hf, ?_, ?_⟩
  · rw [(heval ⟨0, 10⟩).1]
    rfl
  · rw [(heval ⟨0, 7⟩).1]
    rfl

end FpgaRouting.Formula
