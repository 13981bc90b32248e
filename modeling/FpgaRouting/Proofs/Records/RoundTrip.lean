import FpgaRouting.Proofs.Fabric
import FpgaRouting.Proofs.Json.Members
import FpgaRouting.Proofs.Records.Omission

/-!
# Proofs/Records/RoundTrip — what is written reads back

      records   ──toJson──▸   value   ──members in another order──▸   value'   ──ofJson?──▸   records

Writing gives every field, under names that differ, and reading finds a field by its name.  So **the
records are read back whatever the order of the members** (`ofJson?_reordered`): that in which they
are declared or that of their names.  The permutations are a map again after they have been inserted
one by one, because the code of a side pair reads as that pair and as no other.  What reads back does
so with its defaults left out as well (`ofJson?_of_leavesOut`).
-/

namespace FpgaRouting

/-! ## The numbers of the records -/

def Device.numbers (d : Device) : List Nat := [d.width, d.height, d.channelWidth]

def WireType.numbers (w : WireType) : List Nat := [w.length, w.frequency]

def RuleRecord.numbers (r : RuleRecord) : List Nat := r.fromPoints.getD [] ++ r.toPoints.getD []

def SwitchblockRecord.numbers (s : SwitchblockRecord) : List Nat :=
  s.rules.flatMap RuleRecord.numbers

/-- All numbers that the records hold. -/
def Architecture.numbers (a : Architecture) : List Nat :=
  a.device.numbers ++ a.wireTypes.flatMap WireType.numbers
    ++ a.switchblocks.flatMap SwitchblockRecord.numbers

/-! ## Reordering -/

/-- A rewriting of values that changes at most the order in which the members of objects stand. -/
structure Json.Reorders (order : Json → Json) : Prop where
  null : order .null = .null
  number (i : Int) : order (.number i) = .number i
  string (s : String) : order (.string s) = .string s
  array (items : List Json) : order (.array items) = .array (items.map order)
  object (members : List (String × Json)) (h : (members.map (·.1)).Nodup) :
    ∃ reordered, order (.object members) = .object reordered ∧
      reordered.Perm (members.map fun m => (m.1, order m.2))

theorem Json.reorders_id : Reorders id where
  null := rfl
  number _ := rfl
  string _ := rfl
  array items := by rw [List.map_id]; rfl
  object members _ := ⟨members, rfl, by simp⟩

theorem Json.reorders_sortKeys : Reorders sortKeys where
  null := by simp [sortKeys]
  number _ := by simp [sortKeys]
  string _ := by simp [sortKeys]
  array := sortKeys_array
  object _ h := by
    obtain ⟨sorted, hsort, -, hperm⟩ := exists_perm_sortKeys h
    exact ⟨sorted, hsort, hperm⟩

/-! ## Side pairs -/

/-- The code of a side pair reads as that pair. -/
theorem SidePair.ofText_code (p : SidePair) : ofText p.code = .ok p := by
  have hletters : (Text.trim p.code.toList).map Char.toLower = [p.enter.code, p.leave.code] := by
    rw [code, String.toList_ofList]
    cases p.enter <;> cases p.leave <;> decide
  simp only [ofText, hletters, Side.ofCode?_code, p.of?_eq_some]

theorem SidePair.code_injective : Function.Injective code := fun p q h =>
  Except.ok.inj (p.ofText_code.symm.trans (h ▸ q.ofText_code))

/-- **Inserting the entries of a map gives that map**, in any order. -/
theorem Permutations.ofList_eq_of_perm {m : Permutations} {entries : List (SidePair × List String)}
    (h : entries.Perm m.toList) : Std.ExtTreeMap.ofList entries compare = m := by
  have hdistinct : entries.Pairwise fun e e' => ¬ compare e.1 e'.1 = .eq :=
    (h.pairwise_iff fun hne heq => hne (Std.OrientedCmp.eq_symm heq)).mpr
      Std.ExtTreeMap.distinct_keys_toList
  refine Std.ExtTreeMap.ext_getElem? fun p => ?_
  cases hp : m[p]? with
  | some texts =>
    have hmem : (p, texts) ∈ entries :=
      h.mem_iff.mpr (Std.ExtTreeMap.mem_toList_iff_getElem?_eq_some.mpr hp)
    exact Std.ExtTreeMap.getElem?_ofList_of_mem Std.ReflCmp.compare_self hdistinct hmem
  | none =>
    refine Std.ExtTreeMap.getElem?_ofList_of_contains_eq_false ?_
    rw [List.contains_eq_mem, decide_eq_false_iff_not]
    intro hmem
    obtain ⟨⟨_, texts⟩, hentry, rfl⟩ := List.mem_map.mp hmem
    have hsome := Std.ExtTreeMap.mem_toList_iff_getElem?_eq_some.mp (h.mem_iff.mp hentry)
    exact absurd (hp.symm.trans hsome) (by simp)

/-! ## Reading in any order -/

namespace Json

@[simp] theorem format_text? : format.text? = text? := rfl

@[simp] theorem format_word? : format.word? = word? := rfl

@[simp] theorem format_fields?_object (names : List String) (members : List (String × Json)) :
    format.fields? names (.object members) = some members := rfl

namespace Reorders

open Format

variable {order : Json → Json} (ho : Reorders order)

include ho

/-! ### Values -/

theorem text? (s : String) : Json.text? (order (.string s)) = some s := by rw [ho.string]; rfl

theorem word? {n : Nat} (h : n < Word.count) : Json.word? (order (.nat n)) = some n := by
  rw [nat, ho.number, Json.word?, if_pos (by omega), Int.toNat_natCast]

section

variable {α : Type} {read : Json → Option α} {encode : α → Json}

theorem list {as : List α} (h : ∀ a ∈ as, read (order (encode a)) = some a) :
    format.list read (order (.array (as.map encode))) = some as := by
  rw [ho.array, List.map_map]
  change (as.map (order ∘ encode)).mapM read = some as
  induction as with
  | nil => rfl
  | cons a as ih =>
    obtain ⟨ha, has⟩ := List.forall_mem_cons.mp h
    rw [List.map_cons, List.mapM_cons, ih has, Function.comp_apply, ha]
    rfl

theorem nullable {o : Option α} (hnull : read .null = none)
    (h : ∀ a, o = some a → read (order (encode a)) = some a) :
    format.nullable read (order (.option encode o)) = some o := by
  cases o with
  | none => rw [Json.option, ho.null, Keeps.nullable_null]
  | some a =>
    have hread := h a rfl
    -- What reads as a value is not the null that nothing is read from.
    have hvalue : isNull (order (encode a)) = false := by
      cases hcase : order (encode a) with
      | null => rw [hcase, hnull] at hread; cases hread
      | bool | number | string | array | object => rfl
    simp [Format.nullable, Json.option, format, hvalue, hread]

end

theorem strings (ss : List String) :
    format.list Json.text? (order (.strings ss)) = some ss :=
  ho.list fun s _ => ho.text? s

theorem nats {ns : List Nat} (h : ∀ n ∈ ns, n < Word.count) :
    format.list Json.word? (order (.nats ns)) = some ns :=
  ho.list fun n hn => ho.word? (h n hn)

theorem directionality (d : Directionality) :
    format.directionality (order (.string d.name)) = some d := by
  rw [ho.string]
  cases d <;> rfl

/-! ### Records -/

/-- **Of distinct names each finds its field**, wherever it now stands. -/
theorem record (v : Json) {members : List (String × Json)} (hv : v = .object members)
    (hdistinct : (members.map (·.1)).Nodup) :
    ∃ fields, order v = .object fields ∧
      ∀ m ∈ members, field? fields m.1 = some (some (order m.2)) := by
  subst hv
  obtain ⟨fields, horder, hperm⟩ := ho.object members hdistinct
  have hnames : (fields.map (·.1)).Nodup := by
    rw [(hperm.map _).nodup_iff, List.map_map]
    exact hdistinct
  refine ⟨fields, horder, fun m hm => ?_⟩
  obtain ⟨before, after, rfl⟩ := List.append_of_mem
    (hperm.mem_iff.mpr (List.mem_map.mpr ⟨m, hm, rfl⟩))
  rw [field?_append_cons_self, if_pos]
  rw [List.map_append, List.map_cons, List.nodup_middle, List.nodup_cons] at hnames
  intro n hn hname
  exact hnames.1 (by rw [← List.map_append]; exact List.mem_map.mpr ⟨n, hn, hname⟩)

theorem device {d : Device} (h : ∀ n ∈ d.numbers, n < Word.count) :
    format.device (order d.toJson) = some d := by
  simp only [Device.numbers, List.forall_mem_cons] at h
  obtain ⟨fields, horder, hfields⟩ := ho.record d.toJson rfl (by simp)
  simp only [List.forall_mem_cons] at hfields
  simp [Format.device, required, horder, hfields, ho.word?, h]

theorem wireType {w : WireType} (h : ∀ n ∈ w.numbers, n < Word.count) :
    format.wireType (order w.toJson) = some w := by
  simp only [WireType.numbers, List.forall_mem_cons] at h
  obtain ⟨fields, horder, hfields⟩ := ho.record w.toJson rfl (by simp)
  simp only [List.forall_mem_cons] at hfields
  simp [Format.wireType, required, defaulted, horder, hfields, ho.text?, ho.word?, h]

theorem rule {r : RuleRecord} (h : ∀ n ∈ r.numbers, n < Word.count) :
    format.rule (order r.toJson) = some r := by
  have hpoints {o : Option (List Nat)} (hsub : o.getD [] ⊆ r.numbers) :
      format.nullable (format.list Json.word?) (order (.option .nats o)) = some o :=
    ho.nullable rfl fun ns hns => ho.nats fun n hn => h n (hsub (by rwa [hns]))
  have hfrom := hpoints (List.subset_append_left _ _)
  have hto := hpoints (List.subset_append_right _ _)
  have hswitch : format.nullable Json.text? (order (.option .string r.switchName))
      = some r.switchName := ho.nullable rfl fun s _ => ho.text? s
  obtain ⟨fields, horder, hfields⟩ := ho.record r.toJson rfl (by simp)
  simp only [List.forall_mem_cons] at hfields
  simp [Format.rule, required, defaulted, horder, hfields, ho.strings, hfrom, hto, hswitch]

/-- **The permutations are a map again** after their entries have been inserted one by one. -/
theorem permutations (m : Permutations) :
    format.permutations (order (.object
      (m.toList.map fun (p, texts) => (p.code, .strings texts)))) = some m := by
  obtain ⟨fields, horder, hperm⟩ := ho.object _ <| show ((m.toList.map fun (p, texts) =>
      (p.code, Json.strings texts)).map (·.1)).Nodup by
    rw [List.map_map]
    exact nodup_names SidePair.code_injective m
  rw [List.map_map] at hperm
  -- Members in another order are the members of entries in another order.
  obtain ⟨entries, rfl, hentries⟩ := (congrFun₂ (List.eq_map_comp_perm _) fields _).mpr hperm
  rw [Format.permutations, horder]
  change (entries.map _).foldlM _ ∅ = _
  rw [List.foldlM_map, ← Permutations.ofList_eq_of_perm hentries, Std.ExtTreeMap.ofList_eq_foldl,
    ← Option.pure_def, ← List.foldlM_pure]
  refine congrArg (List.foldlM · ∅ entries) (funext₂ fun map e => ?_)
  simp [SidePair.ofText_code, ho.strings]

theorem switchblock {s : SwitchblockRecord} (h : ∀ n ∈ s.numbers, n < Word.count) :
    format.switchblock (order s.toJson) = some s := by
  have hrules : format.list format.rule (order (.array (s.rules.map RuleRecord.toJson)))
      = some s.rules :=
    ho.list fun r hr => ho.rule fun n hn => h n (List.mem_flatMap.mpr ⟨r, hr, hn⟩)
  obtain ⟨fields, horder, hfields⟩ := ho.record s.toJson rfl (by simp)
  simp only [List.forall_mem_cons] at hfields
  simp [Format.switchblock, required, defaulted, horder, hfields, ho.text?, ho.directionality, hrules,
    ho.permutations]

end Reorders

end Json

/-- **What is written reads back**, whatever the order of the members. -/
theorem Architecture.ofJson?_reordered {order : Json → Json} (ho : Json.Reorders order)
    {a : Architecture} (h : ∀ n ∈ a.numbers, n < Word.count) :
    ofJson? (order a.toJson) = some a := by
  simp only [numbers, List.mem_append, List.mem_flatMap] at h
  have hdevice := ho.device fun n hn => h n (.inl (.inl hn))
  have htypes : Json.format.list Json.format.wireType
      (order (.array (a.wireTypes.map WireType.toJson))) = some a.wireTypes :=
    ho.list fun w hw => ho.wireType fun n hn => h n (.inl (.inr ⟨w, hw, hn⟩))
  have hblocks : Json.format.list Json.format.switchblock
      (order (.array (a.switchblocks.map SwitchblockRecord.toJson))) = some a.switchblocks :=
    ho.list fun s hs => ho.switchblock fun n hn => h n (.inr ⟨s, hs, hn⟩)
  obtain ⟨fields, horder, hfields⟩ := ho.record a.toJson rfl (by simp)
  simp only [List.forall_mem_cons] at hfields
  simp [ofJson?, read?, Format.required, horder, hfields, hdevice, ho.directionality, htypes, hblocks]

/-- **Records survive being written and read**, in the declared order of their members or in that of
their names, and with any of the members left out that give a default: in every wire type, rule and
switchblock, one of them or all. -/
theorem Architecture.ofJson?_of_leavesOut (a : Architecture) (h : ∀ n ∈ a.numbers, n < Word.count) :
    ∀ written ∈ [a.toJson, a.toJson.sortKeys],
      ofJson? written = some a ∧
        ∀ v, Relation.ReflTransGen Json.LeavesOut written v → ofJson? v = some a := by
  intro written hwritten
  have hread : ofJson? written = some a := by
    rcases List.mem_pair.mp hwritten with rfl | rfl
    · exact ofJson?_reordered Json.reorders_id h
    · exact ofJson?_reordered Json.reorders_sortKeys h
  exact ⟨hread, fun v hv => keeps_ofJson?.reflTransGen hv hread⟩

/-! ## Records with every default -/

namespace Architecture

def sparseRule : RuleRecord := ⟨["l1"], ["l1"], none, none, none⟩

/-- A switchblock with nothing but what must be given. -/
def sparseBlock : SwitchblockRecord := ⟨"sparse", .unidirectional, "s0", [sparseRule], ∅⟩

/-- A switchblock that gives everything. -/
def fullBlock : SwitchblockRecord :=
  ⟨"full", .unidirectional, "s0", [⟨["l1"], [], some [0], some [], some "s1"⟩],
    (∅ : Permutations).insert ⟨.left, .top, by decide⟩ ["t", "W - t"]⟩

def sparse : Architecture :=
  ⟨⟨2, 3, 4⟩, .unidirectional, [⟨"l1", 1, 1⟩], [sparseBlock, fullBlock]⟩

def sparseRuleJson : Json :=
  .object [("from_type", .strings ["l1"]), ("to_type", .strings ["l1"])]

def sparseBlockJson : Json :=
  .object [
    ("name", .string "sparse"), ("directionality", .string "unidirectional"),
    ("switch_name", .string "s0"), ("wireconns", .array [sparseRuleJson])]

/-- What is left when every default has been left out. -/
def sparseJson : Json :=
  .object [
    ("device", Device.toJson ⟨2, 3, 4⟩), ("directionality", .string "unidirectional"),
    ("wire_types", .array [.object [("name", .string "l1"), ("length", .nat 1)]]),
    ("switchblocks", .array [sparseBlockJson, fullBlock.toJson])]

open Json Relation in
theorem ofJson?_of_leavesOut_sparse :
    (∀ n ∈ sparse.numbers, n < Word.count) ∧ ReflTransGen LeavesOut sparse.toJson sparseJson ∧
      ofJson? sparseJson = some sparse := by
  have hrule : ReflTransGen LeavesOut sparseRule.toJson sparseRuleJson :=
    ((ReflTransGen.single (.drop [_, _, _, _] [] (by simp [defaults, sparseRule, option]))).tail
      (.drop [_, _, _] [] (by simp [defaults, sparseRule, option]))).tail
      (.drop [_, _] [] (by simp [defaults, sparseRule, option]))
  have hblock : ReflTransGen LeavesOut sparseBlock.toJson sparseBlockJson :=
    (ReflTransGen.single (.drop [_, _, _, _] [] (m := ("permutations", .object []))
      (by simp [defaults]))).trans
      (hrule.lift (fun v => Json.object [_, _, _, ("wireconns", .array [v])]) fun _ _ hstep =>
        LeavesOut.member [_, _, _] [] _ (.item [] [] hstep))
  have htype : LeavesOut (WireType.toJson ⟨"l1", 1, 1⟩)
      (.object [("name", .string "l1"), ("length", .nat 1)]) :=
    .drop [_, _] [] (by simp [defaults])
  have hleft : ReflTransGen LeavesOut sparse.toJson sparseJson :=
    (ReflTransGen.single (.member [_, _] [_] _ (.item [] [] htype))).trans
      (hblock.lift (fun v => Json.object [_, _, _, ("switchblocks", .array [v, fullBlock.toJson])])
        fun _ _ hstep => LeavesOut.member [_, _, _] [] _ (.item [] [_] hstep))
  have hnumbers : ∀ n ∈ sparse.numbers, n < Word.count := by decide
  exact ⟨hnumbers, hleft,
    (ofJson?_of_leavesOut sparse hnumbers _ List.mem_cons_self).2 sparseJson hleft⟩

end Architecture

end FpgaRouting
