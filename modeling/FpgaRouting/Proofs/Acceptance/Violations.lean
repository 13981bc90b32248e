import FpgaRouting.Proofs.Fabric

/-!
# Proofs/Acceptance/Violations — everything that is wrong with an architecture

    wire type names ── switchblock: directionality, names, formulas ── next switchblock ── geometry

The records are *consistent* if they agree with each other and with the device.  Whatever keeps them
from it is listed here, violation by violation, also those that stand behind others; **there is none
exactly if the records are consistent** (`violations_eq_nil_iff`).
-/

namespace FpgaRouting

/-! ## Names that are given twice -/

/-- The members of a list that stand in it before, too. -/
def repeatedNames (names : List String) : List String :=
  (List.range names.length).filterMap fun i => names[i]?.filter (· ∈ names.take i)

/-- The search for the first of them, past names that were seen. -/
theorem firstRepeated_eq_findSome? {seen names : List String} :
    firstRepeated seen names = (List.range names.length).findSome? fun i =>
      names[i]?.filter fun name => name ∈ seen ∨ name ∈ names.take i := by
  induction names generalizing seen with
  | nil => rfl
  | cons name names ih =>
    rw [firstRepeated, List.length_cons, List.range_succ_eq_map, List.findSome?_cons,
      List.findSome?_map, List.getElem?_cons_zero, Option.filter_some, List.take_zero]
    by_cases hseen : name ∈ seen
    · simp [hseen]
    · simp only [hseen, List.not_mem_nil, or_false, decide_false, Bool.false_eq_true, if_false, ih]
      refine congrArg (List.findSome? · _) (funext fun i => ?_)
      refine congrArg (names[i]?.filter ·) (funext fun name' => ?_)
      simp only [List.take_succ_cons, List.mem_cons, decide_eq_decide]
      tauto

theorem head?_repeatedNames (names : List String) :
    (repeatedNames names).head? = firstRepeated [] names := by
  simp [firstRepeated_eq_findSome?, repeatedNames]

theorem firstRepeated_eq_none_iff {seen names : List String} :
    firstRepeated seen names = none ↔ names.Nodup ∧ ∀ name ∈ names, name ∉ seen := by
  induction names generalizing seen with
  | nil => simp [firstRepeated]
  | cons name names ih =>
    rw [firstRepeated]
    by_cases hseen : name ∈ seen
    · simp [hseen]
    · rw [if_neg hseen, ih, List.nodup_cons, List.forall_mem_cons]
      constructor
      · rintro ⟨hnodup, hfresh⟩
        exact ⟨⟨fun hmem => hfresh name hmem List.mem_cons_self, hnodup⟩, hseen,
          fun name' hname' hmem => hfresh name' hname' (List.mem_cons_of_mem _ hmem)⟩
      · rintro ⟨⟨hname, hnodup⟩, -, hfresh⟩
        refine ⟨hnodup, fun name' hname' hmem => ?_⟩
        rcases List.mem_cons.mp hmem with rfl | hmem
        · exact hname hname'
        · exact hfresh name' hname' hmem

/-- **No name is given twice exactly if the names are distinct.** -/
theorem repeatedNames_eq_nil_iff {names : List String} :
    repeatedNames names = [] ↔ names.Nodup := by
  rw [← List.head?_eq_none_iff, head?_repeatedNames, firstRepeated_eq_none_iff]
  simp

/-! ## Switchblocks -/

namespace SwitchblockRecord

/-- What is wrong with a name in a rule, if anything. -/
def nameViolation? (s : SwitchblockRecord) (wireTypes : List WireType) (name : String) :
    Option Refusal :=
  if ∃ w ∈ wireTypes, w.name = name then none
  else some (.config (.unknownWireType s.name name))

/-- What is wrong with a formula of a side pair, if anything. -/
def formulaViolation? (s : SwitchblockRecord) (p : SidePair) (text : String) : Option Refusal :=
  match Formula.parse text with
  | .ok _ => none
  | .error e => some (.formula s.name p e)

/-- Everything that is wrong with a switchblock on a device of directionality `d`. -/
def violations (s : SwitchblockRecord) (d : Directionality) (wireTypes : List WireType) :
    List Refusal :=
  (if s.directionality ≠ d then [.config (.directionality s.name s.directionality d)] else [])
    ++ (s.rules.flatMap fun r => (r.fromTypes ++ r.toTypes).filterMap (s.nameViolation? wireTypes))
    ++ SidePair.all.flatMap fun p => (s.formulas p).filterMap (s.formulaViolation? p)

end SwitchblockRecord

/-! ## Architectures -/

namespace Architecture

/-- The sum of the frequencies of all wire types. -/
def totalFrequency (a : Architecture) : Nat := (a.wireTypes.map (·.frequency)).sum

/-- The number of physical wires side by side in a channel. -/
def units (a : Architecture) : Nat := a.device.channelWidth / a.directionality.tracksPerWire

/-- **Records that agree with each other and with the device.** -/
structure Consistent (a : Architecture) : Prop where
  nodup_names : (a.wireTypes.map (·.name)).Nodup
  directionality_eq : ∀ s ∈ a.switchblocks, s.directionality = a.directionality
  exists_wireType : ∀ s ∈ a.switchblocks, ∀ r ∈ s.rules, ∀ name ∈ r.fromTypes ++ r.toTypes,
    ∃ w ∈ a.wireTypes, w.name = name
  exists_formula : ∀ s ∈ a.switchblocks, ∀ p, ∀ text ∈ s.formulas p,
    ∃ f, Formula.parse text = .ok f
  width_pos : 0 < a.device.width
  height_pos : 0 < a.device.height
  length_pos : ∀ w ∈ a.wireTypes, 0 < w.length
  tracksPerWire_dvd : a.directionality.tracksPerWire ∣ a.device.channelWidth
  channelWidth_eq_zero_or : a.device.channelWidth = 0 ∨ 0 < a.totalFrequency

/-- What is wrong with the geometry of the device and its channels. -/
def geometryViolations (a : Architecture) : List Refusal :=
  (if a.device.width = 0 ∨ a.device.height = 0 then
      [Refusal.config (.noTiles a.device.width a.device.height)] else [])
    ++ ((a.wireTypes.filter (·.length = 0)).map fun w => Refusal.config (.zeroLength w.name))
    ++ (if ¬ a.directionality.tracksPerWire ∣ a.device.channelWidth then
      [Refusal.config (.unevenWidth a.device.channelWidth a.directionality)] else [])
    ++ (if a.device.channelWidth ≠ 0 ∧ a.totalFrequency = 0 then
      [Refusal.config .zeroFrequencies] else [])

/-- **Everything that is wrong with an architecture**, in the order in which it is looked for. -/
def violations (a : Architecture) : List Refusal :=
  ((repeatedNames (a.wireTypes.map (·.name))).map fun name => .config (.duplicateWireType name))
    ++ (a.switchblocks.flatMap (·.violations a.directionality a.wireTypes))
    ++ a.geometryViolations

end Architecture

/-! ## Consistency -/

theorem SwitchblockRecord.violations_eq_nil_iff {s : SwitchblockRecord} {d : Directionality}
    {ws : List WireType} :
    s.violations d ws = [] ↔ s.directionality = d ∧
      (∀ r ∈ s.rules, ∀ name ∈ r.fromTypes ++ r.toTypes, ∃ w ∈ ws, w.name = name) ∧
      ∀ p, ∀ text ∈ s.formulas p, ∃ f, Formula.parse text = .ok f := by
  have hname : ∀ name, s.nameViolation? ws name = none ↔ ∃ w ∈ ws, w.name = name := fun name => by
    simp [nameViolation?]
  have hformula : ∀ p text, s.formulaViolation? p text = none ↔ ∃ f, Formula.parse text = .ok f :=
    fun p text => by
      rw [formulaViolation?]
      cases Formula.parse text <;> simp
  simp only [violations, List.append_eq_nil_iff, List.flatMap_eq_nil_iff,
    List.filterMap_eq_nil_iff, hname, hformula, and_assoc]
  refine and_congr ?_ (and_congr_right fun _ => forall_congr' fun p => ?_)
  · rw [ite_eq_right_iff, ← not_ne_iff]
    simp
  · simp only [SidePair.mem_all p, forall_const]

theorem Architecture.geometryViolations_eq_nil_iff {a : Architecture} :
    a.geometryViolations = [] ↔ (0 < a.device.width ∧ 0 < a.device.height) ∧
      (∀ w ∈ a.wireTypes, 0 < w.length) ∧ a.directionality.tracksPerWire ∣ a.device.channelWidth ∧
      (a.device.channelWidth = 0 ∨ 0 < a.totalFrequency) := by
  simp only [geometryViolations, List.append_eq_nil_iff, List.map_eq_nil_iff,
    List.filter_eq_nil_iff, ite_eq_right_iff, List.cons_ne_nil, imp_false, decide_eq_true_eq,
    Nat.pos_iff_ne_zero, not_or, not_and_or, not_not, and_assoc, ne_eq]

/-- **Nothing is wrong with an architecture exactly if its records are consistent.** -/
theorem Architecture.violations_eq_nil_iff {a : Architecture} :
    a.violations = [] ↔ a.Consistent := by
  rw [violations, List.append_eq_nil_iff, List.append_eq_nil_iff, List.map_eq_nil_iff,
    repeatedNames_eq_nil_iff, List.flatMap_eq_nil_iff, geometryViolations_eq_nil_iff]
  simp only [SwitchblockRecord.violations_eq_nil_iff]
  constructor
  · rintro ⟨⟨hnames, hswitchblocks⟩, ⟨hwidth, hheight⟩, hlength, hdvd, hserved⟩
    exact ⟨hnames, fun s hs => (hswitchblocks s hs).1, fun s hs => (hswitchblocks s hs).2.1,
      fun s hs => (hswitchblocks s hs).2.2, hwidth, hheight, hlength, hdvd, hserved⟩
  · intro h
    exact ⟨⟨h.nodup_names, fun s hs => ⟨h.directionality_eq s hs, h.exists_wireType s hs,
      h.exists_formula s hs⟩⟩, ⟨h.width_pos, h.height_pos⟩, h.length_pos, h.tracksPerWire_dvd,
      h.channelWidth_eq_zero_or⟩

end FpgaRouting
