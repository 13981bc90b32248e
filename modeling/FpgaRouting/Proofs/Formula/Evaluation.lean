import FpgaRouting.Proofs.Formula.Acceptance
import FpgaRouting.Proofs.Formula.Offences
import FpgaRouting.Proofs.Outcome

/-!
# Proofs/Formula/Evaluation — a parsed formula fails on arithmetic only

    program    t     8     W     -     /
    stack      ·     ··    ···   ··    ·        as long as the arity check has counted

A program works on a stack step by step (`Step.act`), and the arity check counts what the stack will
hold: **each step that is taken changes the count and the height of the stack alike**.  A program
that has passed the check therefore finds two operands at each operator and ends with one value, all
of them signed words, so that nothing but an operator can fail.  A formula that has been parsed
reports its own text with a division by zero or an overflow (`eval_of_parse`).
-/

namespace FpgaRouting.Formula

/-! ## Steps on a stack -/

/-- **One step of a program**: an operand goes onto the stack, and an operator takes two from it and
leaves its value. -/
def Step.act (b : Binding) (stack : List Int) : Step → Except Cause (List Int)
  | .push a => .ok (a.value b :: stack)
  | .apply o =>
    match stack with
    | right :: left :: below => do return (← o.apply left right) :: below
    | _ => .error .missingOperand

/-- The value of a stack that holds no other. -/
def sole : List Int → Except Cause Int
  | [] => .error .empty
  | [value] => .ok value
  | _ :: _ :: _ => .error .trailingOperand

/-- **A program runs step by step.** -/
theorem run_eq_foldlM (b : Binding) (stack : List Int) (steps : List Step) :
    run b stack steps = steps.foldlM (Step.act b) stack >>= sole := by
  induction steps generalizing stack with
  | nil => rcases stack with _ | ⟨_, _ | ⟨_, _⟩⟩ <;> rfl
  | cons step steps ih =>
    cases step with
    | push a => rw [run, ih]; rfl
    | apply o =>
      rcases stack with _ | ⟨right, _ | ⟨left, below⟩⟩
      · rfl
      · rfl
      · rw [run, List.foldlM_cons, Step.act]
        cases o.apply left right with
        | error cause => rfl
        | ok value => exact ih (value :: below)

variable {b : Binding} {steps done rest : List Step} {stack stack' : List Int} {c : Cause}

/-- **An operator that finds two operands** leaves its exact result, or fails with the fault of the
operation. -/
theorem act_apply (b : Binding) (o : Op) (right left : Int) (below : List Int) :
    Step.act b (right :: left :: below) (.apply o)
      = match (⟨o, left, right⟩ : Operation).fault? with
        | some cause => .error cause
        | none => .ok (o.exact left right :: below) := by
  rw [Step.act, Op.apply_eq]
  cases (⟨o, left, right⟩ : Operation).fault? <;> rfl

theorem Operation.signed_of_fault? {s : Operation} (h : s.fault? = none) :
    Word.Signed (s.op.exact s.left s.right) := by
  rw [fault?] at h
  split_ifs at h with hzero hfit
  exact hfit

/-- A step that is taken pushes an operand, or replaces two by a result that is a signed word. -/
theorem cases_of_act {step : Step} (h : step.act b stack = .ok stack') :
    (∃ a, step = .push a ∧ stack' = a.value b :: stack) ∨
    ∃ o right left below, step = .apply o ∧ stack = right :: left :: below ∧
      stack' = o.exact left right :: below ∧ Word.Signed (o.exact left right) := by
  cases step with
  | push a => exact .inl ⟨a, rfl, (Except.ok.inj h).symm⟩
  | apply o =>
    rcases stack with _ | ⟨right, _ | ⟨left, below⟩⟩
    · cases h
    · cases h
    · rw [act_apply] at h
      split at h
      · cases h
      · next hfault =>
        exact .inr ⟨o, right, left, below, rfl, rfl, (Except.ok.inj h).symm,
          Operation.signed_of_fault? hfault⟩

/-! ## The count is the height of the stack -/

/-- A step that is taken is counted. -/
theorem depthAfter_of_act {step : Step} (h : step.act b stack = .ok stack') (rest : List Step) :
    depthAfter stack.length (step :: rest) = depthAfter stack'.length rest := by
  obtain ⟨a, rfl, rfl⟩ | ⟨o, right, left, below, rfl, rfl, rfl, -⟩ := cases_of_act h
  · rfl
  · rw [depthAfter, if_neg (by simp)]
    rfl

/-- **Whatever has been done, the count is the height of the stack.** -/
theorem depthAfter_of_foldlM (h : done.foldlM (Step.act b) stack = .ok stack') (rest : List Step) :
    depthAfter stack.length (done ++ rest) = depthAfter stack'.length rest := by
  refine Outcome.holds_of_foldlM (fun left stack₁ =>
    depthAfter stack.length (done ++ rest) = depthAfter stack₁.length (left ++ rest)) ?_ h rfl
  intro step left stack₁ stack₂ hcount hstep
  rw [hcount, List.cons_append, depthAfter_of_act hstep]

/-- **An operator of a program that is counted finds two operands.** -/
theorem exists_operands {o : Op} {n : Nat}
    (harity : depthAfter 0 (done ++ .apply o :: rest) = .ok n)
    (hdone : done.foldlM (Step.act b) [] = .ok stack) :
    ∃ right left below, stack = right :: left :: below := by
  rw [← List.length_nil (α := Int), depthAfter_of_foldlM hdone, depthAfter] at harity
  split_ifs at harity with hdepth
  rcases stack with _ | ⟨right, _ | ⟨left, below⟩⟩
  · exact absurd (by simp) hdepth
  · exact absurd (by simp) hdepth
  · exact ⟨right, left, below, rfl⟩

/-! ## What can go wrong -/

/-- **What can go wrong when a parsed formula is evaluated.** -/
def Cause.IsArithmetic (c : Cause) : Prop := c = .divisionByZero ∨ c = .overflow

instance (c : Cause) : Decidable c.IsArithmetic := inferInstanceAs (Decidable (_ ∨ _))

theorem Operation.isArithmetic_of_fault? {s : Operation} (h : s.fault? = some c) :
    c.IsArithmetic := by
  rw [fault?] at h
  split_ifs at h with hzero hfit
  · exact .inl (Option.some.inj h).symm
  · exact .inr (Option.some.inj h).symm

/-- **A program that leaves one operand ends with one value, or fails on arithmetic.** -/
theorem exists_result_of_arity (b : Binding) (harity : depthAfter 0 steps = .ok 1) :
    (∃ value, steps.foldlM (Step.act b) [] = .ok [value]) ∨
      ∃ c, steps.foldlM (Step.act b) [] = .error c ∧ c.IsArithmetic := by
  cases hrun : steps.foldlM (Step.act b) [] with
  | ok stack =>
    have hcount := depthAfter_of_foldlM hrun []
    rw [List.append_nil, List.length_nil, harity] at hcount
    obtain ⟨value, rfl⟩ := List.length_eq_one_iff.mp (Except.ok.inj hcount).symm
    exact .inl ⟨value, rfl⟩
  | error c =>
    refine .inr ⟨c, rfl, ?_⟩
    obtain ⟨done, step, rest, stack, rfl, hdone, hstep⟩ :=
      Outcome.exists_split_of_foldlM_eq_error hrun
    cases step with
    | push a => cases hstep
    | apply o =>
      obtain ⟨right, left, below, rfl⟩ := exists_operands harity hdone
      rw [act_apply] at hstep
      split at hstep
      · next cause hfault =>
        obtain rfl := Except.error.inj hstep
        exact Operation.isArithmetic_of_fault? hfault
      · cases hstep

/-! ## The stack holds signed words -/

theorem signed_of_act {step : Step} (hpush : ∀ a, step = .push a → Word.Signed (a.value b))
    (hstack : ∀ v ∈ stack, Word.Signed v) (h : step.act b stack = .ok stack') :
    ∀ v ∈ stack', Word.Signed v := by
  obtain ⟨a, rfl, rfl⟩ | ⟨o, right, left, below, rfl, rfl, rfl, hresult⟩ := cases_of_act h
  · exact List.forall_mem_cons.mpr ⟨hpush a rfl, hstack⟩
  · have hbelow : ∀ v ∈ below, Word.Signed v := fun v hv =>
      hstack v (List.mem_cons_of_mem _ (List.mem_cons_of_mem _ hv))
    exact List.forall_mem_cons.mpr ⟨hresult, hbelow⟩

/-- **Operands that are signed words make a stack of signed words.** -/
theorem signed_of_foldlM (hpush : ∀ a, Step.push a ∈ done → Word.Signed (a.value b))
    (hstack : ∀ v ∈ stack, Word.Signed v) (h : done.foldlM (Step.act b) stack = .ok stack') :
    ∀ v ∈ stack', Word.Signed v := by
  refine (Outcome.holds_of_foldlM (fun left stack₁ =>
    (∀ a, Step.push a ∈ left → Word.Signed (a.value b)) ∧ ∀ v ∈ stack₁, Word.Signed v)
    ?_ h ⟨hpush, hstack⟩).2
  rintro step left stack₁ stack₂ ⟨hleft, hsigned⟩ hstep
  have hnext : ∀ a, step = .push a → Word.Signed (a.value b) := fun a ha =>
    hleft a (ha ▸ List.mem_cons_self)
  exact ⟨fun a ha => hleft a (List.mem_cons_of_mem _ ha), signed_of_act hnext hsigned hstep⟩

/-- The operands of a program are those of its tokens. -/
theorem Loose.atom_mem_tokens {p : LoosePhrase} {e : Loose p} {a : Atom}
    (h : .push a ∈ e.postfixForm) : .atom a ∈ e.tokens := by
  induction e with
  | atom a' => simpa [postfixForm, tokens] using h
  | bracket e ih => exact List.mem_append_left _ (List.mem_cons_of_mem _ (ih h))
  | nothing => cases h
  | run r ih => exact ih h
  | term t ih => exact ih h
  | beside r f ihr ihf =>
    rcases List.mem_append.mp h with h | h
    · exact List.mem_append_left _ (ihr h)
    · exact List.mem_append_right _ (ihf h)
  | product left o ho right ihl ihr | sum left o ho right ihl ihr =>
    rw [postfixForm, List.append_assoc, List.mem_append, List.mem_append] at h
    rcases h with h | h | h
    · exact List.mem_append_left _ (ihl h)
    · exact List.mem_append_right _ (List.mem_cons_of_mem _ (ihr h))
    · simp at h

/-! ## Parsed formulas -/

variable {text : String} {f : Formula}

/-- **A parsed formula is the program of a tree that leaves one operand**, under the text it was
read from. -/
theorem exists_loose_of_parse (h : parse text = .ok f) :
    f.text = text ∧ ∃ e : Loose .expr, tokens text = .ok e.tokens ∧ e.postfixForm = f.program ∧
      e.effect 0 = some 1 := by
  have hcompile : f.text = text ∧ compile text = .ok f.program := by
    rw [parse] at h
    split at h
    · next program hcompile =>
      obtain rfl := Except.ok.inj h
      exact ⟨rfl, hcompile⟩
    · cases h
  obtain ⟨htext, hprogram⟩ := hcompile
  obtain ⟨ts, htokens, -⟩ := Outcome.bind_eq_ok_iff.mp hprogram
  refine ⟨htext, ?_⟩
  cases horder : order [] ts with
  | none =>
    rw [compile_of_order_eq_none htokens horder] at hprogram
    cases hprogram
  | some steps =>
    obtain ⟨e, rfl⟩ := Loose.exists_of_order horder
    rw [compile_of_loose htokens, verdict_eq_ok_iff] at hprogram
    exact ⟨e, htokens, hprogram.2, hprogram.1⟩

theorem depthAfter_of_parse (h : parse text = .ok f) : depthAfter 0 f.program = .ok 1 := by
  obtain ⟨-, e, -, hprogram, heffect⟩ := exists_loose_of_parse h
  rw [← hprogram, e.depthAfter_postfixForm, heffect]
  rfl

/-- **Every operand of a parsed formula is a signed word**, if the variables are. -/
theorem signed_of_push (hparse : parse text = .ok f) (hwidth : Word.Signed b.width)
    (htrack : Word.Signed b.track) {a : Atom} (ha : .push a ∈ f.program) :
    Word.Signed (a.value b) := by
  obtain ⟨-, e, htokens, hprogram, -⟩ := exists_loose_of_parse hparse
  have hmem := Loose.atom_mem_tokens (hprogram ▸ ha)
  cases a with
  | width => exact hwidth
  | track => exact htrack
  | number n =>
    have hfit : n < Word.half := (spells_of_tokensFrom htokens).2 n hmem
    simp only [Word.Signed, Atom.value]
    omega

/-- A parsed formula evaluates to the one value its program leaves, or reports its text. -/
theorem eval_eq_of_parse (hparse : parse text = .ok f) (b : Binding) :
    (∃ value, f.program.foldlM (Step.act b) [] = .ok [value] ∧ f.eval b = .ok value) ∨
      ∃ c, f.program.foldlM (Step.act b) [] = .error c ∧ f.eval b = .error ⟨text, c⟩ ∧
        c.IsArithmetic := by
  have htext := (exists_loose_of_parse hparse).1
  rcases exists_result_of_arity b (depthAfter_of_parse hparse) with ⟨value, hrun⟩ | ⟨c, hrun, hc⟩
  · exact .inl ⟨value, hrun, by rw [eval, run_eq_foldlM, hrun]; rfl⟩
  · exact .inr ⟨c, hrun, by rw [eval, run_eq_foldlM, hrun, ← htext]; rfl, hc⟩

/-- **A parsed formula fails on arithmetic only**, and names itself. -/
theorem isArithmetic_of_eval (hparse : parse text = .ok f) {e : Error} (h : f.eval b = .error e) :
    e.text = text ∧ e.cause.IsArithmetic := by
  obtain ⟨value, -, heval⟩ | ⟨c, -, heval, hc⟩ := eval_eq_of_parse hparse b
  · rw [heval] at h
    cases h
  · rw [heval] at h
    obtain rfl := Except.error.inj h
    exact ⟨rfl, hc⟩

/-- **Nothing but arithmetic can go wrong in a formula that has been parsed.**  Whatever part of its
program has been done, the stack is as high as the arity check has counted, and holds signed words;
an operator that comes next finds two of them and leaves its exact result, or fails with the fault
of the operation.  So the program ends with exactly one value, or with a division by zero or an
overflow that is reported with the text. -/
theorem eval_of_parse (hparse : parse text = .ok f) (hwidth : Word.Signed b.width)
    (htrack : Word.Signed b.track) :
    (∀ done step rest stack, f.program = done ++ step :: rest →
      done.foldlM (Step.act b) [] = .ok stack →
      depthAfter 0 done = .ok stack.length ∧ (∀ v ∈ stack, Word.Signed v) ∧
      ∀ o, step = .apply o → ∃ right left below, stack = right :: left :: below ∧
        step.act b stack = match (⟨o, left, right⟩ : Operation).fault? with
          | some cause => .error cause
          | none => .ok (o.exact left right :: below)) ∧
    ((∃ value, f.program.foldlM (Step.act b) [] = .ok [value] ∧ Word.Signed value ∧
        f.eval b = .ok value) ∨
      ∃ cause, f.program.foldlM (Step.act b) [] = .error cause ∧
        f.eval b = .error ⟨text, cause⟩ ∧ (cause = .divisionByZero ∨ cause = .overflow)) := by
  have harity := depthAfter_of_parse hparse
  refine ⟨fun done step rest stack hprogram hdone => ⟨?_, ?_, ?_⟩, ?_⟩
  · have hcount := depthAfter_of_foldlM hdone []
    rwa [List.append_nil] at hcount
  · refine signed_of_foldlM (fun a ha => signed_of_push hparse hwidth htrack ?_) (by simp) hdone
    exact hprogram ▸ List.mem_append_left _ ha
  · rintro o rfl
    obtain ⟨right, left, below, rfl⟩ := exists_operands (hprogram ▸ harity) hdone
    exact ⟨right, left, below, rfl, act_apply b o right left below⟩
  · refine (eval_eq_of_parse hparse b).imp_left ?_
    rintro ⟨value, hrun, heval⟩
    have hsigned := signed_of_foldlM (fun a ha => signed_of_push hparse hwidth htrack ha)
      (by simp) hrun
    exact ⟨value, hrun, hsigned value List.mem_cons_self, heval⟩

/-- A formula that is not infix: its two tracks stand side by side. -/
def stacked : Formula :=
  ⟨"t t + W /", [.push .track, .push .track, .push .width, .apply .div, .apply .add]⟩

theorem eval_of_parse_stacked : parse "t t + W /" = .ok stacked ∧
    stacked.eval ⟨2, 5⟩ = .ok 7 ∧
    ∃ cause, stacked.eval ⟨0, 5⟩ = .error ⟨"t t + W /", cause⟩ ∧
      (cause = .divisionByZero ∨ cause = .overflow) := by
  have hparse : parse "t t + W /" = .ok stacked := by decide
  have hfail : stacked.program.foldlM (Step.act ⟨0, 5⟩) [] = .error .divisionByZero := by decide
  refine ⟨hparse, by decide, ?_⟩
  obtain ⟨-, ⟨value, hrun, -⟩ | ⟨cause, -, hreport, hcause⟩⟩ :=
    @eval_of_parse ⟨0, 5⟩ _ _ hparse (by decide) (by decide)
  · rw [hfail] at hrun
    cases hrun
  · exact ⟨cause, hreport, hcause⟩

end FpgaRouting.Formula
