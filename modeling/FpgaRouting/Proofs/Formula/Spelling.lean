import Mathlib
import FpgaRouting.Formula.Basic

/-!
# Proofs/Formula/Spelling — the texts that write a token list

    " (W+ 007)*t "  ──tokens──▸  ( W + 7 ) * t

A token has one written form, except for a number, which may have any leading zeros.  `Writes`
joins written forms with any white space around them, and `Spells` asks for white space between two
numbers, which would be one otherwise.  A text is read part by part (`tokensFrom_append`), so that
**a text that spells a token list is read back as that list** (`tokens_of_spells`).
-/

namespace FpgaRouting.Formula

/-! ## Written forms -/

/-- The written forms of a token: one character, or the digits of a number. -/
inductive Lexeme : Token → List Char → Prop
  | number {digits : List Char} (hne : digits ≠ []) (hdigits : ∀ c ∈ digits, c.isDigit) :
      Lexeme (.atom (.number (Nat.ofDigitChars 10 digits 0))) digits
  | width : Lexeme (.atom .width) ['W']
  | track : Lexeme (.atom .track) ['t']
  | add : Lexeme (.op .add) ['+']
  | sub : Lexeme (.op .sub) ['-']
  | mul : Lexeme (.op .mul) ['*']
  | div : Lexeme (.op .div) ['/']
  | leftBracket : Lexeme .leftBracket ['(']
  | rightBracket : Lexeme .rightBracket [')']

/-- A run of white space, possibly empty. -/
def IsBlank (cs : List Char) : Prop := ∀ c ∈ cs, Text.isBlank c

/-- **A text that writes a token list**: the written forms in order, with white space anywhere
around them. -/
inductive Writes : List Token → List Char → Prop
  | nil {blank : List Char} (hblank : IsBlank blank) : Writes [] blank
  | cons {blank form rest : List Char} {token : Token} {ts : List Token} (hblank : IsBlank blank)
      (hform : Lexeme token form) (hrest : Writes ts rest) :
      Writes (token :: ts) (blank ++ form ++ rest)

/-- A token that is a number. -/
def Token.IsNumber : Token → Prop
  | .atom (.number _) => True
  | _ => False

/-- Two numbers never stand side by side, so no white space is needed to tell them apart. -/
def Apart (ts : List Token) : Prop := ts.IsChain fun t u => ¬ (t.IsNumber ∧ u.IsNumber)

/-- **A text that spells a token list**: it writes the list, and there is white space between two
adjacent numbers. -/
inductive Spells : List Token → List Char → Prop
  | nil {blank : List Char} (hblank : IsBlank blank) : Spells [] blank
  | cons {blank form rest : List Char} {token : Token} {ts : List Token} (hblank : IsBlank blank)
      (hform : Lexeme token form) (hrest : Spells ts rest)
      (hgap : token.IsNumber → (∃ u ∈ ts.head?, u.IsNumber) →
        ∃ c ∈ rest.head?, Text.isBlank c = true) :
      Spells (token :: ts) (blank ++ form ++ rest)

theorem Writes.spells {ts : List Token} {cs : List Char} (h : Writes ts cs) (hap : Apart ts) :
    Spells ts cs := by
  induction h with
  | nil hblank => exact .nil hblank
  | cons hblank hform _ ih =>
    refine .cons hblank hform (ih hap.of_cons) ?_
    rintro ht ⟨u, hu, hun⟩
    exact absurd ⟨ht, hun⟩ ((List.isChain_cons.mp hap).1 u hu)

/-- Every literal is a signed word. -/
def LiteralsFit (ts : List Token) : Prop := ∀ n, Token.atom (.number n) ∈ ts → n < Word.half

/-! ## Characters -/

/-- A text whose first character, if any, is no digit. -/
def StartsApart (cs : List Char) : Prop := ∀ c ∈ cs.head?, c.isDigit = false

/-- A text whose last character, if any, is no digit. -/
def EndsApart (cs : List Char) : Prop := ∀ c ∈ cs.getLast?, c.isDigit = false

theorem isDigit_eq_false_of_isBlank {c : Char} (h : Text.isBlank c = true) : c.isDigit = false := by
  simp only [Text.isBlank, Text.blankRanges, List.any_cons, List.any_nil, Bool.or_eq_true,
    Bool.and_eq_true, decide_eq_true_eq, Bool.false_eq_true, or_false] at h
  rw [Char.isDigit, Bool.and_eq_false_iff, decide_eq_false_iff_not, decide_eq_false_iff_not]
  simp only [ge_iff_le, UInt32.le_iff_toNat_le]
  change ¬ 48 ≤ c.toNat ∨ ¬ c.toNat ≤ 57
  omega

/-- The only written forms that start with a digit are those of numbers. -/
theorem Lexeme.cases_isNumber {token : Token} {form : List Char} (h : Lexeme token form) :
    token.IsNumber ∨ ∃ c, form = [c] ∧ symbol? c = some token ∧ c.isDigit = false ∧
      Text.isBlank c = false := by
  cases h with
  | number => exact Or.inl trivial
  | _ => exact Or.inr ⟨_, rfl, rfl, rfl, rfl⟩

theorem Lexeme.startsApart {token : Token} {form : List Char} (h : Lexeme token form)
    (hn : ¬ token.IsNumber) (rest : List Char) : StartsApart (form ++ rest) := by
  obtain h' | ⟨c, rfl, -, hc, -⟩ := h.cases_isNumber
  · exact absurd h' hn
  · intro d hd
    obtain rfl : c = d := by simpa using hd
    exact hc

theorem IsBlank.startsApart_append {blank cs : List Char} (hblank : IsBlank blank)
    (hcs : StartsApart cs) : StartsApart (blank ++ cs) := by
  cases blank with
  | nil => exact hcs
  | cons b bs =>
    intro d hd
    obtain rfl : b = d := by simpa using hd
    exact isDigit_eq_false_of_isBlank (hblank b (by simp))

theorem IsBlank.endsApart {blank : List Char} (hblank : IsBlank blank) : EndsApart blank :=
  fun c hc => isDigit_eq_false_of_isBlank (hblank c (List.mem_of_getLast? hc))

/-- A text does not start with a digit, unless a number stands first in it. -/
theorem Spells.startsApart {ts : List Token} {cs : List Char} (h : Spells ts cs)
    (hgap : (∃ u ∈ ts.head?, u.IsNumber) → ∃ c ∈ cs.head?, Text.isBlank c = true) :
    StartsApart cs := by
  cases h with
  | nil hblank =>
    simpa using @IsBlank.startsApart_append _ [] hblank (by simp [StartsApart])
  | @cons blank form rest token ts hblank hform hrest =>
    by_cases hn : token.IsNumber
    · obtain ⟨c, hc, hcblank⟩ := hgap ⟨token, rfl, hn⟩
      intro d hd
      obtain rfl : c = d := Option.some.inj (hc.symm.trans hd)
      exact isDigit_eq_false_of_isBlank hcblank
    · rw [List.append_assoc]
      exact hblank.startsApart_append (hform.startsApart hn _)

/-! ## Numbers -/

theorem digit?_of_isDigit {c : Char} (h : c.isDigit = true) :
    Text.digit? 10 c = some (c.toNat - '0'.toNat) := by
  simp only [Char.isDigit, Bool.and_eq_true, decide_eq_true_eq] at h
  have hle : '0' ≤ c ∧ c ≤ '9' := h
  have hlt : c.toNat - '0'.toNat < 10 := by
    have h9 : c.toNat ≤ 57 := UInt32.le_iff_toNat_le.mp h.2
    change c.toNat - 48 < 10
    omega
  rw [Text.digit?, if_pos hle]
  exact Option.filter_eq_some_iff.mpr ⟨rfl, by simpa using hlt⟩

theorem foldlM_digit? {digits : List Char} (hdigits : ∀ c ∈ digits, c.isDigit) (value : Nat) :
    digits.foldlM (fun value c => (Text.digit? 10 c).map (10 * value + ·)) value
      = some (Nat.ofDigitChars 10 digits value) := by
  induction digits generalizing value with
  | nil => rw [List.foldlM_nil, Nat.ofDigitChars_nil]; rfl
  | cons c cs ih =>
    rw [List.foldlM_cons, digit?_of_isDigit (hdigits c (by simp)), Nat.ofDigitChars_cons]
    exact ih (fun d hd => hdigits d (by simp [hd])) _

/-- **Digits denote their decimal value.** -/
theorem number?_of_isDigit {digits : List Char} (hne : digits ≠ [])
    (hdigits : ∀ c ∈ digits, c.isDigit) :
    Text.number? 10 digits = some (Nat.ofDigitChars 10 digits 0) := by
  cases digits with
  | nil => exact absurd rfl hne
  | cons c cs => exact foldlM_digit? hdigits 0

theorem closeRun_of_isDigit {digits : List Char} (hne : digits ≠ [])
    (hdigits : ∀ c ∈ digits, c.isDigit) :
    closeRun digits
      = if Nat.ofDigitChars 10 digits 0 < Word.half then
          .ok [.atom (.number (Nat.ofDigitChars 10 digits 0))]
        else .error (.invalidNumber (String.ofList digits)) := by
  cases digits with
  | nil => exact absurd rfl hne
  | cons c cs =>
    rw [closeRun, number?_of_isDigit hne hdigits]
    · split_ifs with hfit <;> simp [Option.filter, hfit]
    · exact hne

/-! ## Reading part by part

A text may be cut wherever no digit run goes on across the cut.  Each part is then read by
itself. -/

/-- What is read from two parts of a text: the tokens of both, or the first failure. -/
def followedBy (x y : Except Cause (List Token)) : Except Cause (List Token) := do
  return (← x) ++ (← y)

@[simp] theorem ok_followedBy_ok (ts us : List Token) :
    followedBy (.ok ts) (.ok us) = .ok (ts ++ us) := rfl

@[simp] theorem error_followedBy (cause : Cause) (x : Except Cause (List Token)) :
    followedBy (.error cause) x = .error cause := rfl

@[simp] theorem ok_followedBy_error (ts : List Token) (cause : Cause) :
    followedBy (.ok ts) (.error cause) = .error cause := rfl

@[simp] theorem nil_followedBy (x : Except Cause (List Token)) : followedBy (.ok []) x = x := by
  cases x <;> rfl

@[simp] theorem followedBy_nil (x : Except Cause (List Token)) : followedBy x (.ok []) = x := by
  cases x <;> simp

theorem followedBy_assoc (x y z : Except Cause (List Token)) :
    followedBy (followedBy x y) z = followedBy x (followedBy y z) := by
  cases x <;> cases y <;> cases z <;> simp

/-- What is read from a character that is no digit. -/
def readSymbol (position : Nat) (c : Char) : Except Cause (List Token) :=
  if Text.isBlank c then .ok []
  else match symbol? c with
    | none => .error (.unknownCharacter c position)
    | some token => .ok [token]

theorem tokensFrom_cons {c : Char} (hc : c.isDigit = false) (run : List Char) (position : Nat)
    (cs : List Char) :
    tokensFrom run position (c :: cs) = followedBy (closeRun run.reverse)
      (followedBy (readSymbol position c) (tokensFrom [] (position + c.utf8Size) cs)) := by
  rw [tokensFrom, if_neg (by simp [hc]), readSymbol]
  cases closeRun run.reverse with
  | error cause => rfl
  | ok number =>
    split_ifs
    · rw [nil_followedBy]
      rfl
    · cases symbol? c with
      | none => rfl
      | some token => cases tokensFrom [] (position + c.utf8Size) cs <;> rfl

theorem utf8Size_of_isDigit {c : Char} (h : c.isDigit = true) : c.utf8Size = 1 := by
  simp only [Char.isDigit, Bool.and_eq_true, decide_eq_true_eq] at h
  have hascii : (57 : UInt32) ≤ 127 := by decide
  exact Char.utf8Size_eq_one_iff.mpr (UInt32.le_trans h.2 hascii)

/-- **What follows a digit run that has come to its end is read by itself.** -/
theorem tokensFrom_append_of_startsApart {rest : List Char} (h : StartsApart rest)
    (before run : List Char) (position : Nat) :
    tokensFrom run position (before ++ rest) = followedBy (tokensFrom run position before)
      (tokensFrom [] (position + String.utf8Len before) rest) := by
  induction before generalizing run position with
  | nil =>
    cases rest with
    | nil => exact (followedBy_nil _).symm
    | cons c cs =>
      have hc : c.isDigit = false := h c rfl
      rw [List.nil_append, tokensFrom_cons hc, tokensFrom_cons hc, List.reverse_nil]
      exact congrArg _ (nil_followedBy _).symm
  | cons c cs ih =>
    rw [List.cons_append, String.utf8Len_cons, ← Nat.add_assoc, Nat.add_right_comm]
    cases hc : c.isDigit with
    | true =>
      rw [tokensFrom, if_pos hc, tokensFrom, if_pos hc, ih, utf8Size_of_isDigit hc]
    | false => rw [tokensFrom_cons hc, tokensFrom_cons hc, ih, followedBy_assoc, followedBy_assoc]

/-- **A text is read part by part** if no digit run goes on from one part to the next. -/
theorem tokensFrom_append {before rest : List Char} (h : StartsApart rest ∨ EndsApart before)
    (position : Nat) :
    tokensFrom [] position (before ++ rest) = followedBy (tokensFrom [] position before)
      (tokensFrom [] (position + String.utf8Len before) rest) := by
  rcases h with h | h
  · exact tokensFrom_append_of_startsApart h before [] position
  · -- The last character of the first part ends any run, so that the cut before it may be used.
    rcases List.eq_nil_or_concat before with rfl | ⟨init, c, rfl⟩
    · exact (nil_followedBy _).symm
    · have hc : c.isDigit = false := h c (by simp)
      have hstarts : ∀ cs, StartsApart (c :: cs) := fun cs d hd => by
        obtain rfl : c = d := by simpa using hd
        exact hc
      rw [List.concat_eq_append, List.append_assoc, List.singleton_append,
        tokensFrom_append_of_startsApart (hstarts rest),
        tokensFrom_append_of_startsApart (hstarts []), tokensFrom_cons hc, tokensFrom_cons hc,
        String.utf8Len_append, followedBy_assoc]
      simp [closeRun, tokensFrom, String.utf8Len_cons, Nat.add_assoc]

/-! ## Reading a text back -/

theorem tokensFrom_digits {digits : List Char} (hdigits : ∀ c ∈ digits, c.isDigit)
    (run : List Char) (position : Nat) :
    tokensFrom run position digits = closeRun (run.reverse ++ digits) := by
  induction digits generalizing run position with
  | nil => rw [tokensFrom, List.append_nil]
  | cons c cs ih =>
    have hc : c.isDigit = true := hdigits c (by simp)
    rw [tokensFrom, if_pos hc, ih fun d hd => hdigits d (by simp [hd])]
    simp

theorem tokensFrom_blank {blank : List Char} (hblank : IsBlank blank) (position : Nat) :
    tokensFrom [] position blank = .ok [] := by
  induction blank generalizing position with
  | nil => rfl
  | cons c cs ih =>
    have hc : Text.isBlank c = true := hblank c (by simp)
    rw [tokensFrom_cons (isDigit_eq_false_of_isBlank hc), readSymbol, if_pos hc,
      ih fun d hd => hblank d (by simp [hd])]
    rfl

/-- **A written form is read as its token**, if it is no number that is too large. -/
theorem tokensFrom_lexeme {token : Token} {form : List Char} (hform : Lexeme token form)
    (hfit : LiteralsFit [token]) (position : Nat) :
    tokensFrom [] position form = .ok [token] := by
  obtain hnumber | ⟨c, rfl, hsymbol, hdigit, hblank⟩ := hform.cases_isNumber
  · cases hform with
    | @number digits hne hdigits =>
      rw [tokensFrom_digits hdigits, List.reverse_nil, List.nil_append,
        closeRun_of_isDigit hne hdigits, if_pos (hfit _ (by simp))]
    | _ => exact absurd hnumber not_false
  · rw [tokensFrom_cons hdigit, readSymbol, if_neg (by simp [hblank]), hsymbol]
    rfl

/-- A form may be cut off from what follows it in a text that spells. -/
theorem Lexeme.startsApart_or_endsApart {token : Token} {form rest : List Char}
    (h : Lexeme token form) (hrest : token.IsNumber → StartsApart rest) :
    StartsApart rest ∨ EndsApart form := by
  obtain hnumber | ⟨c, rfl, -, hdigit, -⟩ := h.cases_isNumber
  · exact .inl (hrest hnumber)
  · refine .inr fun d hd => ?_
    obtain rfl : c = d := by simpa using hd
    exact hdigit

/-- **A text that spells a token list is read back as that list.** -/
theorem tokensFrom_of_spells {ts : List Token} {cs : List Char} (h : Spells ts cs)
    (hfit : LiteralsFit ts) (position : Nat) : tokensFrom [] position cs = .ok ts := by
  induction h generalizing position with
  | nil hblank => exact tokensFrom_blank hblank position
  | @cons blank form rest token ts hblank hform hrest hgap ih =>
    have htoken : LiteralsFit [token] := fun n hn => hfit n (by simp_all)
    have hts : LiteralsFit ts := fun n hn => hfit n (List.mem_cons_of_mem _ hn)
    have hcut := hform.startsApart_or_endsApart fun ht => hrest.startsApart (hgap ht)
    rw [List.append_assoc, tokensFrom_append (.inr hblank.endsApart), tokensFrom_append hcut,
      tokensFrom_blank hblank, tokensFrom_lexeme hform htoken, ih hts]
    rfl

theorem tokens_of_spells {ts : List Token} {text : String} (h : Spells ts text.toList)
    (hfit : LiteralsFit ts) : tokens text = .ok ts :=
  tokensFrom_of_spells h hfit 0

theorem tokens_of_writes {ts : List Token} {text : String} (h : Writes ts text.toList)
    (hap : Apart ts) (hfit : LiteralsFit ts) : tokens text = .ok ts :=
  tokens_of_spells (h.spells hap) hfit

end FpgaRouting.Formula
