import FpgaRouting.Proofs.Formula.Spelling

/-!
# Proofs/Formula/Offences — where a text stops spelling tokens

      " W +\u00a012 ? t"             12 99999999999999999999 )
        └─ read ──┘ └ a stray character, 9 bytes in    └ a digit run that is no signed word

A text is scanned piece by piece: white space, a symbol, a whole digit run, or a character that is
none of these (`scan_induction`).  Either each piece is fine, and **the text spells the tokens that
are read from it**; or there is a first piece that is not, and **that piece is the offence that is
reported, with everything before it readable** (`tokens_eq_iff`).
-/

namespace FpgaRouting.Formula

/-! ## Characters -/

/-- The characters of formulas, white space apart. -/
def InAlphabet (c : Char) : Prop :=
  c.isDigit = true ∨ c ∈ ['W', 't', '+', '-', '*', '/', '(', ')']

theorem lexeme_of_symbol? {c : Char} {token : Token} (h : symbol? c = some token) :
    Lexeme token [c] ∧ ¬ token.IsNumber := by
  unfold symbol? at h
  split at h <;> cases h
  exacts [⟨.width, not_false⟩, ⟨.track, not_false⟩, ⟨.add, not_false⟩, ⟨.sub, not_false⟩,
    ⟨.mul, not_false⟩, ⟨.div, not_false⟩, ⟨.leftBracket, not_false⟩, ⟨.rightBracket, not_false⟩]

theorem symbol?_eq_none_iff {c : Char} :
    symbol? c = none ↔ c ∉ ['W', 't', '+', '-', '*', '/', '(', ')'] := by
  unfold symbol?
  split <;> simp_all

theorem not_inAlphabet_iff {c : Char} :
    ¬ InAlphabet c ↔ c.isDigit = false ∧ symbol? c = none := by
  rw [InAlphabet, not_or, Bool.not_eq_true, symbol?_eq_none_iff]

/-! ## Scanning -/

/-- A text is empty, or starts with a digit run or another character. -/
theorem exists_digits_append (cs : List Char) :
    ∃ digits rest, cs = digits ++ rest ∧ (∀ c ∈ digits, c.isDigit = true) ∧ StartsApart rest := by
  refine ⟨cs.takeWhile Char.isDigit, cs.dropWhile Char.isDigit,
    List.takeWhile_append_dropWhile.symm, fun c hc => List.mem_takeWhile_imp hc, fun c hc => ?_⟩
  have h := List.head?_dropWhile_not Char.isDigit cs
  rwa [hc] at h

/-- **Induction on a text as it is scanned**: white space and symbols one by one, digit runs as a
whole, and characters that are none of these. -/
@[elab_as_elim]
theorem scan_induction {motive : List Char → Prop} (nil : motive [])
    (blank : ∀ c cs, Text.isBlank c = true → motive cs → motive (c :: cs))
    (symbol : ∀ c cs token, symbol? c = some token → c.isDigit = false → Text.isBlank c = false →
      motive cs → motive (c :: cs))
    (number : ∀ digits rest, digits ≠ [] → (∀ c ∈ digits, c.isDigit = true) → StartsApart rest →
      motive rest → motive (digits ++ rest))
    (stray : ∀ c cs, Text.isBlank c = false → ¬ InAlphabet c → motive (c :: cs))
    (cs : List Char) : motive cs := by
  induction hlength : cs.length using Nat.strong_induction_on generalizing cs with
  | _ n ih =>
    subst hlength
    obtain ⟨digits, rest, rfl, hdigits, hrest⟩ := exists_digits_append cs
    by_cases hne : digits = []
    · subst hne
      cases rest with
      | nil => exact nil
      | cons c cs =>
        have hdigit : c.isDigit = false := hrest c rfl
        have hcs : motive cs := ih _ (by simp) cs rfl
        cases hblank : Text.isBlank c with
        | true => exact blank c cs hblank hcs
        | false =>
          cases hsymbol : symbol? c with
          | none => exact stray c cs hblank (not_inAlphabet_iff.mpr ⟨hdigit, hsymbol⟩)
          | some token => exact symbol c cs token hsymbol hdigit hblank hcs
    · have hpos : 0 < digits.length := List.length_pos_iff.mpr hne
      exact number digits rest hne hdigits hrest
        (ih _ (by rw [List.length_append]; omega) rest rfl)

theorem followedBy_eq_ok_iff {x y : Except Cause (List Token)} {ts : List Token} :
    followedBy x y = .ok ts ↔ ∃ us vs, x = .ok us ∧ y = .ok vs ∧ us ++ vs = ts := by
  cases x <;> cases y <;> simp

theorem tokensFrom_blank_cons {c : Char} (h : Text.isBlank c = true) (position : Nat)
    (cs : List Char) :
    tokensFrom [] position (c :: cs) = tokensFrom [] (position + c.utf8Size) cs := by
  rw [tokensFrom_cons (isDigit_eq_false_of_isBlank h), readSymbol, if_pos h]
  simp [closeRun]

theorem tokensFrom_symbol_cons {c : Char} {token : Token} (hsymbol : symbol? c = some token)
    (hdigit : c.isDigit = false) (hblank : Text.isBlank c = false) (position : Nat)
    (cs : List Char) :
    tokensFrom [] position (c :: cs)
      = followedBy (.ok [token]) (tokensFrom [] (position + c.utf8Size) cs) := by
  rw [tokensFrom_cons hdigit, readSymbol, if_neg (by simp [hblank]), hsymbol]
  simp [closeRun]

theorem tokensFrom_digits_append {digits rest : List Char} (hne : digits ≠ [])
    (hdigits : ∀ c ∈ digits, c.isDigit = true) (hrest : StartsApart rest) (position : Nat) :
    tokensFrom [] position (digits ++ rest)
      = followedBy (if Nat.ofDigitChars 10 digits 0 < Word.half then
            .ok [.atom (.number (Nat.ofDigitChars 10 digits 0))]
          else .error (.invalidNumber (String.ofList digits)))
        (tokensFrom [] (position + String.utf8Len digits) rest) := by
  rw [tokensFrom_append (.inl hrest), tokensFrom_digits hdigits, List.reverse_nil, List.nil_append,
    closeRun_of_isDigit hne hdigits]

theorem tokensFrom_stray_cons {c : Char} (hblank : Text.isBlank c = false) (h : ¬ InAlphabet c)
    (position : Nat) (cs : List Char) :
    tokensFrom [] position (c :: cs) = .error (.unknownCharacter c position) := by
  obtain ⟨hdigit, hsymbol⟩ := not_inAlphabet_iff.mp h
  rw [tokensFrom_cons hdigit, readSymbol, if_neg (by simp [hblank]), hsymbol]
  simp [closeRun]

/-! ## What is read is what is spelled -/

theorem Spells.blank_cons {c : Char} {ts : List Token} {cs : List Char}
    (hc : Text.isBlank c = true) (h : Spells ts cs) : Spells ts (c :: cs) := by
  have hcons : ∀ {blank}, IsBlank blank → IsBlank (c :: blank) := fun hblank d hd => by
    rcases List.mem_cons.mp hd with rfl | hd
    · exact hc
    · exact hblank d hd
  cases h with
  | nil hblank => exact .nil (hcons hblank)
  | cons hblank hform hrest hgap => exact .cons (hcons hblank) hform hrest hgap

/-- White space stands before a number that does not begin its text. -/
theorem Spells.isBlank_head {ts : List Token} {cs : List Char} (h : Spells ts cs)
    (hcs : StartsApart cs) (hnumber : ∃ u ∈ ts.head?, u.IsNumber) :
    ∃ c ∈ cs.head?, Text.isBlank c = true := by
  obtain ⟨u, hu, hun⟩ := hnumber
  cases h with
  | nil => simp at hu
  | @cons blank form rest token ts hblank hform =>
    obtain rfl : token = u := by simpa using hu
    cases blank with
    | cons b blank => exact ⟨b, rfl, hblank b List.mem_cons_self⟩
    | nil =>
      cases hform with
      | @number digits hne hdigits =>
        obtain ⟨d, digits, rfl⟩ := List.exists_cons_of_ne_nil hne
        have hd : d.isDigit = false := hcs d rfl
        simp [hdigits d List.mem_cons_self] at hd
      | _ => exact absurd hun not_false

/-- **What is read from a text is what it spells.** -/
theorem spells_of_tokensFrom {cs : List Char} {position : Nat} {ts : List Token}
    (h : tokensFrom [] position cs = .ok ts) : Spells ts cs ∧ LiteralsFit ts := by
  induction cs using scan_induction generalizing position ts with
  | nil =>
    obtain rfl : [] = ts := Except.ok.inj h
    exact ⟨.nil (by simp [IsBlank]), by simp [LiteralsFit]⟩
  | blank c cs hc ih =>
    rw [tokensFrom_blank_cons hc] at h
    exact (ih h).imp_left (Spells.blank_cons hc)
  | symbol c cs token hsymbol hdigit hblank ih =>
    rw [tokensFrom_symbol_cons hsymbol hdigit hblank, followedBy_eq_ok_iff] at h
    obtain ⟨us, vs, hus, hvs, rfl⟩ := h
    obtain rfl := Except.ok.inj hus
    obtain ⟨hform, hn⟩ := lexeme_of_symbol? hsymbol
    obtain ⟨hspells, hfit⟩ := ih hvs
    refine ⟨@Spells.cons [] [c] cs token vs (by simp [IsBlank]) hform hspells (absurd · hn),
      fun n hmem => ?_⟩
    rcases List.mem_cons.mp hmem with rfl | hmem
    · exact absurd trivial hn
    · exact hfit n hmem
  | number digits rest hne hdigits hrest ih =>
    rw [tokensFrom_digits_append hne hdigits hrest, followedBy_eq_ok_iff] at h
    obtain ⟨us, vs, hus, hvs, rfl⟩ := h
    split_ifs at hus with hvalue
    obtain rfl := Except.ok.inj hus
    obtain ⟨hspells, hfit⟩ := ih hvs
    refine ⟨@Spells.cons [] digits rest _ vs (by simp [IsBlank]) (.number hne hdigits) hspells
      fun _ => hspells.isBlank_head hrest, fun n hmem => ?_⟩
    rcases List.mem_cons.mp hmem with heq | hmem
    · obtain rfl : n = _ := Atom.number.inj (Token.atom.inj heq)
      exact hvalue
    · exact hfit n hmem
  | stray c cs hblank halphabet =>
    rw [tokensFrom_stray_cons hblank halphabet] at h
    cases h

/-! ## Offences -/

/-- **What is wrong at a place of a text**, where `before` stands before it: a character that no
formula has, reported with the number of bytes before it, or a whole digit run whose value is no
signed word. -/
inductive Offence (before : List Char) : List Char → Cause → Prop
  | character {c : Char} {rest : List Char} (hblank : Text.isBlank c = false)
      (halphabet : ¬ InAlphabet c) :
      Offence before (c :: rest) (.unknownCharacter c (String.ofList before).utf8ByteSize)
  | number {digits rest : List Char} (hne : digits ≠ []) (hdigits : ∀ c ∈ digits, c.isDigit = true)
      (hbefore : EndsApart before) (hrest : StartsApart rest)
      (hvalue : Word.half ≤ Nat.ofDigitChars 10 digits 0) :
      Offence before (digits ++ rest) (.invalidNumber (String.ofList digits))

variable {before after : List Char} {cause : Cause} {ts : List Token}

/-- No digit run goes on from before an offence into it. -/
theorem Offence.startsApart_or_endsApart (h : Offence before after cause) :
    StartsApart after ∨ EndsApart before := by
  cases h with
  | @character c rest _ halphabet =>
    refine .inl fun d hd => ?_
    obtain rfl : c = d := by simpa using hd
    exact (not_inAlphabet_iff.mp halphabet).1
  | number _ _ hbefore => exact .inr hbefore

/-- **An offence behind a readable text is reported.** -/
theorem Offence.tokensFrom_append (h : Offence before after cause)
    (hbefore : tokensFrom [] 0 before = .ok ts) :
    tokensFrom [] 0 (before ++ after) = .error cause := by
  rw [Formula.tokensFrom_append h.startsApart_or_endsApart, hbefore, Nat.zero_add]
  cases h with
  | character hblank halphabet =>
    rw [tokensFrom_stray_cons hblank halphabet, String.utf8ByteSize_ofList]
    rfl
  | number hne hdigits _ hrest hvalue =>
    rw [tokensFrom_digits_append hne hdigits hrest, if_neg (not_lt.mpr hvalue)]
    rfl

/-- A part that can be read is read behind a text that can. -/
theorem tokensFrom_append_of_ok {part : List Char} {us : List Token}
    (hbefore : tokensFrom [] 0 before = .ok ts) (hcut : StartsApart part ∨ EndsApart before)
    (hpart : ∀ position, tokensFrom [] position part = .ok us) :
    tokensFrom [] 0 (before ++ part) = .ok (ts ++ us) := by
  rw [tokensFrom_append hcut, hbefore, hpart, ok_followedBy_ok]

theorem endsApart_append_singleton {c : Char} (hc : c.isDigit = false) (cs : List Char) :
    EndsApart (cs ++ [c]) := by
  intro d hd
  obtain rfl : c = d := by simpa using hd
  exact hc

/-- **A text that goes on from a readable one can be read on, or has an offence** with a readable
text before it. -/
theorem exists_read_or_offence {cs : List Char} (hbefore : tokensFrom [] 0 before = .ok ts)
    (hcut : StartsApart cs ∨ EndsApart before) :
    (∃ us, tokensFrom [] 0 (before ++ cs) = .ok us) ∨
    ∃ front after cause us, before ++ cs = front ++ after ∧ Offence front after cause ∧
      tokensFrom [] 0 front = .ok us := by
  -- The induction moves each piece that can be read from `cs` to `before`.
  induction cs using scan_induction generalizing before ts with
  | nil => exact .inl ⟨ts, by rwa [List.append_nil]⟩
  | blank c cs hc ih =>
    have hdigit : c.isDigit = false := isDigit_eq_false_of_isBlank hc
    have hstep := tokensFrom_append_of_ok hbefore (.inl (by simp [StartsApart, hdigit]))
      fun position => tokensFrom_blank (by simpa [IsBlank] using hc : IsBlank [c]) position
    have hrest := ih hstep (.inr (endsApart_append_singleton hdigit before))
    rwa [List.append_assoc] at hrest
  | symbol c cs token hsymbol hdigit hblank ih =>
    have hstep := tokensFrom_append_of_ok hbefore (.inl (by simp [StartsApart, hdigit]))
      fun position => tokensFrom_symbol_cons hsymbol hdigit hblank position []
    have hrest := ih hstep (.inr (endsApart_append_singleton hdigit before))
    rwa [List.append_assoc] at hrest
  | number digits rest hne hdigits hrest ih =>
    obtain ⟨d, digits, rfl⟩ := List.exists_cons_of_ne_nil hne
    have hends : EndsApart before := hcut.resolve_left fun hstarts => by
      simpa [hdigits d List.mem_cons_self] using hstarts d rfl
    by_cases hvalue : Nat.ofDigitChars 10 (d :: digits) 0 < Word.half
    · have hstep := tokensFrom_append_of_ok hbefore (.inr hends) fun position =>
        tokensFrom_lexeme (.number hne hdigits) (by simpa [LiteralsFit] using hvalue) position
      have hread := ih hstep (.inl hrest)
      rwa [List.append_assoc] at hread
    · exact .inr ⟨before, _, _, ts, rfl, .number hne hdigits hends hrest (not_lt.mp hvalue),
        hbefore⟩
  | stray c cs hblank halphabet =>
    exact .inr ⟨before, _, _, ts, rfl, .character hblank halphabet, hbefore⟩

/-- **The tokens of a text are those it spells, and any other text fails at its first offence.** -/
theorem tokens_eq_iff (text : String) :
    (∀ ts, tokens text = .ok ts ↔ Spells ts text.toList ∧ LiteralsFit ts) ∧
    ∀ cause, tokens text = .error cause ↔
      ∃ before after, text.toList = before ++ after ∧ Offence before after cause ∧
        ∃ ts, tokens (String.ofList before) = .ok ts := by
  refine ⟨fun ts => ⟨spells_of_tokensFrom, fun h => tokens_of_spells h.1 h.2⟩, fun cause => ?_⟩
  simp only [tokens, String.toList_ofList]
  constructor
  · intro herror
    obtain ⟨us, hread⟩ | ⟨before, after, cause', us, htext, hoffence, hbefore⟩ :=
      @exists_read_or_offence [] [] text.toList rfl (.inr (by simp [EndsApart]))
    · exact absurd (herror.symm.trans hread) (by simp)
    · rw [List.nil_append] at htext
      have herror' := hoffence.tokensFrom_append hbefore
      rw [← htext, herror] at herror'
      obtain rfl := Except.error.inj herror'
      exact ⟨before, after, htext, hoffence, us, hbefore⟩
  · rintro ⟨before, after, htext, hoffence, us, hbefore⟩
    rw [htext]
    exact hoffence.tokensFrom_append hbefore

/-- A position counts bytes: the space before `12` takes two. -/
example : tokens " W +\u00a012 ? t" = .error (.unknownCharacter '?' 9) := by decide

end FpgaRouting.Formula
