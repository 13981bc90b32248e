import Mathlib
import FpgaRouting.Records.Json

/-!
# Proofs/Records/Omission — members that may be left out

      { "name": "l4", "length": 4, "frequency": 1 }   ──LeavesOut──▸   { "name": "l4", "length": 4 }

Five names of members have a default, and no reader tells a member that gives its default from one
that is missing.  **A value that reads as some records still does so once a default member has been
left out**, wherever it stood (`keeps_ofJson?`).

Each reader is compared with itself along a relation on what it reads: `LeavesOut` on values, and on
the fields of one record the relation that it induces there.
-/

namespace FpgaRouting

/-! ## The field of a name -/

namespace Format

variable {V : Type} {name : String} {before after fields : List (String × V)}

theorem filter_eq_nil_iff_forall_ne :
    fields.filter (·.1 = name) = [] ↔ ∀ m ∈ fields, m.1 ≠ name := by
  simp only [List.filter_eq_nil_iff, decide_eq_true_eq, ne_eq]

theorem field?_eq_some_none_iff : field? fields name = some none ↔ ∀ m ∈ fields, m.1 ≠ name := by
  rw [← filter_eq_nil_iff_forall_ne, field?]
  generalize fields.filter (·.1 = name) = found
  rcases found with - | ⟨m, - | ⟨n, rest⟩⟩ <;> simp

theorem field?_append_cons_of_ne {m : String × V} (h : m.1 ≠ name) :
    field? (before ++ m :: after) name = field? (before ++ after) name := by
  simp [field?, h]

/-- **A field that is given is found if no other has its name**, and refused otherwise. -/
theorem field?_append_cons_self (v : V) :
    field? (before ++ (name, v) :: after) name
      = if ∀ m ∈ before ++ after, m.1 ≠ name then some (some v) else none := by
  simp only [← filter_eq_nil_iff_forall_ne, field?, List.filter_append, List.filter_cons,
    decide_true, if_true]
  generalize before.filter (·.1 = name) = found
  generalize after.filter (·.1 = name) = found'
  rcases found with - | ⟨m, - | ⟨n, rest⟩⟩ <;> rcases found' with - | ⟨m', rest'⟩ <;> simp

end Format

/-! ## Leaving out -/

namespace Json

/-- The members that say what is assumed where they are missing. -/
def defaults : List (String × Json) :=
  [("frequency", .nat 1), ("from_points", .null), ("to_points", .null), ("switch_name", .null),
    ("permutations", .object [])]

/-- The second value is the first without one default member, of itself or of a value inside. -/
inductive LeavesOut : Json → Json → Prop
  | drop (before after : List (String × Json)) {m : String × Json} (h : m ∈ defaults) :
      LeavesOut (object (before ++ m :: after)) (object (before ++ after))
  | member (before after : List (String × Json)) (name : String) {v w : Json} (h : LeavesOut v w) :
      LeavesOut (object (before ++ (name, v) :: after)) (object (before ++ (name, w) :: after))
  | item (before after : List Json) {v w : Json} (h : LeavesOut v w) :
      LeavesOut (array (before ++ v :: after)) (array (before ++ w :: after))

/-- The same on the fields of a record. -/
inductive FieldsLeaveOut : List (String × Json) → List (String × Json) → Prop
  | drop (before after : List (String × Json)) {m : String × Json} (h : m ∈ defaults) :
      FieldsLeaveOut (before ++ m :: after) (before ++ after)
  | change (before after : List (String × Json)) (name : String) {v w : Json} (h : LeavesOut v w) :
      FieldsLeaveOut (before ++ (name, v) :: after) (before ++ (name, w) :: after)

/-- **The only member of a choice is null.** -/
theorem eq_of_mem_of_choice? {members : List (String × Json)} {name : String} {m : String × Json}
    (h : choice? (object members) = some name) (hm : m ∈ members) : m = (name, null) := by
  unfold choice? at h
  split at h
  · contradiction
  · rename_i heq
    obtain rfl := Json.object.inj heq
    obtain rfl := Option.some.inj h
    exact List.mem_singleton.mp hm
  · cases h

/-- The fields of a record are left out with its members; in an array of fields none is. -/
theorem LeavesOut.exists_fields? {names : List String} {v w : Json}
    {fields : List (String × Json)} (h : LeavesOut v w) (hv : fields? names v = some fields) :
    ∃ fields', fields? names w = some fields' ∧ FieldsLeaveOut fields fields' := by
  cases h with
  | drop before after hm =>
    obtain rfl := Option.some.inj hv
    exact ⟨_, rfl, .drop before after hm⟩
  | member before after name h =>
    obtain rfl := Option.some.inj hv
    exact ⟨_, rfl, .change before after name h⟩
  | @item before after v w h =>
    simp only [fields?, Option.ite_none_right_eq_some, List.length_append, List.length_cons] at hv ⊢
    obtain ⟨hlength, hzip⟩ := hv
    -- The item is the field of the name at its place.
    obtain ⟨pre, name, post, rfl, hpre⟩ :
        ∃ pre name post, names = pre ++ name :: post ∧ pre.length = before.length :=
      ⟨names.take before.length, names[before.length], names.drop (before.length + 1), by simp,
        by simp; omega⟩
    rw [List.zip_append hpre, List.zip_cons_cons] at hzip
    obtain rfl := Option.some.inj hzip
    exact ⟨_, ⟨hlength, by rw [List.zip_append hpre, List.zip_cons_cons]⟩, .change _ _ name h⟩

/-- A field still has its value, or one with something left out, or was itself left out. -/
theorem FieldsLeaveOut.field? {fields fields' : List (String × Json)}
    (h : FieldsLeaveOut fields fields') {name : String} {o : Option Json}
    (ho : Format.field? fields name = some o) :
    Format.field? fields' name = some o ∨
      (∃ v w, o = some v ∧ LeavesOut v w ∧ Format.field? fields' name = some (some w)) ∨
      (∃ v, o = some v ∧ (name, v) ∈ defaults ∧ Format.field? fields' name = some none) := by
  cases h with
  | @drop before after m hm =>
    obtain ⟨name', v⟩ := m
    by_cases hname : name' = name
    · subst hname
      rw [Format.field?_append_cons_self, Option.ite_none_right_eq_some] at ho
      obtain ⟨hothers, ho⟩ := ho
      exact .inr (.inr ⟨v, (Option.some.inj ho).symm, hm, Format.field?_eq_some_none_iff.mpr hothers⟩)
    · rw [Format.field?_append_cons_of_ne hname] at ho
      exact .inl ho
  | @change before after name' v w hvw =>
    by_cases hname : name' = name
    · subst hname
      rw [Format.field?_append_cons_self, Option.ite_none_right_eq_some] at ho
      obtain ⟨hothers, ho⟩ := ho
      refine .inr (.inl ⟨v, w, (Option.some.inj ho).symm, hvw, ?_⟩)
      rw [Format.field?_append_cons_self, if_pos hothers]
    · rw [Format.field?_append_cons_of_ne hname] at ho ⊢
      exact .inl ho

end Json

/-! ## Readers that do not notice -/

/-- What is read on one side of a relation is also read on the other. -/
def Keeps {V α : Type} (R : V → V → Prop) (read : V → Option α) : Prop :=
  ∀ ⦃v w : V⦄ ⦃a : α⦄, R v w → read v = some a → read w = some a

namespace Keeps

open Json

variable {V α β : Type} {R : V → V → Prop}

theorem pure (a : α) : Keeps R fun _ => (Pure.pure a : Option α) := fun _ _ _ _ h => h

/-- **One reader after the other.** -/
theorem bind {read : V → Option α} {next : V → α → Option β} (hread : Keeps R read)
    (hnext : ∀ a, Keeps R (next · a)) : Keeps R fun v => read v >>= next v := by
  intro v w b h hv
  obtain ⟨a, ha, hb⟩ := Option.bind_eq_some_iff.mp hv
  exact Option.bind_eq_some_iff.mpr ⟨a, hread h ha, hnext a h hb⟩

/-- A run of omissions is noticed no more than one. -/
theorem reflTransGen {read : V → Option α} (hread : Keeps R read) :
    Keeps (Relation.ReflTransGen R) read := by
  intro v w a h hv
  induction h with
  | refl => exact hv
  | tail _ hstep ih => exact hread hstep ih

/-! ### Values -/

theorem word? : Keeps LeavesOut Json.word? := fun _ _ _ h hv => by cases h <;> cases hv

theorem text? : Keeps LeavesOut Json.text? := fun _ _ _ h hv => by cases h <;> cases hv

variable {read : Json → Option α}

theorem list (hread : Keeps LeavesOut read) : Keeps LeavesOut (format.list read) := by
  intro v w as h hv
  cases h with
  | drop | member => cases hv
  | item before after h =>
    simp only [Format.list, format, items?, Option.bind_eq_bind, Option.bind_some, List.mapM_append,
      List.mapM_cons, Option.pure_def, Option.bind_eq_some_iff] at hv ⊢
    obtain ⟨bs, hbefore, _, ⟨c, hc, hafter⟩, has⟩ := hv
    exact ⟨bs, hbefore, _, ⟨c, hread h hc, hafter⟩, has⟩

theorem nullable_null (read : Json → Option α) : format.nullable read .null = some none := rfl

/-- Nothing can be left out of a null, and leaving something out makes no null. -/
theorem nullable (hread : Keeps LeavesOut read) : Keeps LeavesOut (format.nullable read) := by
  intro v w o h hv
  have hnull : isNull v = false ∧ isNull w = false := by cases h <;> exact ⟨rfl, rfl⟩
  simp only [Format.nullable, format, hnull, Bool.false_eq_true, if_false, Option.map_eq_some_iff]
    at hv ⊢
  obtain ⟨a, ha, hsome⟩ := hv
  exact ⟨a, hread h ha, hsome⟩

/-! ### Fields -/

variable {name : String}

/-- A field that must be given, if no default passes as its value. -/
theorem required (hread : Keeps LeavesOut read)
    (hdefault : ∀ v, (name, v) ∈ defaults → read v = none) :
    Keeps FieldsLeaveOut (Format.required · name read) := by
  intro fields fields' a h hfields
  obtain ⟨o, ho, hbind⟩ := Option.bind_eq_some_iff.mp hfields
  obtain ⟨v, rfl, hv⟩ := Option.bind_eq_some_iff.mp hbind
  simp only [Format.required, Option.bind_eq_bind, Option.bind_eq_some_iff]
  rcases h.field? ho with hkept | ⟨_, w, hsome, hvw, hchanged⟩ | ⟨_, hsome, hmem, -⟩
  · exact ⟨_, hkept, v, rfl, hv⟩
  · obtain rfl := Option.some.inj hsome
    exact ⟨_, hchanged, w, rfl, hread hvw hv⟩
  · obtain rfl := Option.some.inj hsome
    exact absurd (hdefault v hmem) (by simp [hv])

/-- **A field with a default**, if the members that may be left out give just that. -/
theorem defaulted {default : α} (hread : Keeps LeavesOut read)
    (hdefault : ∀ v, (name, v) ∈ defaults → read v = some default) :
    Keeps FieldsLeaveOut (Format.defaulted · name read default) := by
  intro fields fields' a h hfields
  obtain ⟨o, ho, hvalue⟩ := Option.bind_eq_some_iff.mp hfields
  simp only [Format.defaulted, Option.bind_eq_bind, Option.bind_eq_some_iff]
  rcases h.field? ho with hkept | ⟨v, w, rfl, hvw, hchanged⟩ | ⟨v, rfl, hmem, hdropped⟩
  · exact ⟨_, hkept, hvalue⟩
  · exact ⟨_, hchanged, hread hvw hvalue⟩
  · exact ⟨_, hdropped, (hdefault v hmem).symm.trans hvalue⟩

/-- The fields one after the other, if the step refuses every default. -/
theorem foldlM {step : β → String × Json → Option β}
    (hstep : ∀ b name, Keeps LeavesOut fun v => step b (name, v))
    (hdefault : ∀ b, ∀ m ∈ defaults, step b m = none) (b : β) :
    Keeps FieldsLeaveOut (List.foldlM step b) := by
  intro fields fields' c h hfields
  cases h with
  | @drop before after m hm =>
    simp [List.foldlM_append, hdefault _ m hm] at hfields
  | change before after name hvw =>
    simp only [List.foldlM_append, List.foldlM_cons, Option.bind_eq_bind, Option.bind_eq_some_iff]
      at hfields ⊢
    obtain ⟨b', hbefore, b'', hb'', hafter⟩ := hfields
    exact ⟨b', hbefore, b'', hstep b' name hvw hb'', hafter⟩

/-! ### Records -/

theorem record (names : List String) {read : List (String × Json) → Option α}
    (hread : Keeps FieldsLeaveOut read) :
    Keeps LeavesOut fun v => format.fields? names v >>= read := by
  intro v w a h hv
  obtain ⟨fields, hfields, ha⟩ := Option.bind_eq_some_iff.mp hv
  obtain ⟨fields', hfields', hleft⟩ := h.exists_fields? hfields
  exact Option.bind_eq_some_iff.mpr ⟨fields', hfields', hread hleft ha⟩

theorem entries {read : List (String × Json) → Option α} (hread : Keeps FieldsLeaveOut read) :
    Keeps LeavesOut fun v => format.entries? v >>= read := by
  intro v w a h hv
  cases h with
  | drop before after hm => exact hread (.drop before after hm) hv
  | member before after name h => exact hread (.change before after name h) hv
  | item => cases hv

/-- An object is a choice by its only member, which is null: so nothing is left out inside, and if
the member is left out itself, no directionality goes by its name. -/
theorem directionality : Keeps LeavesOut format.directionality := by
  have hdefault : ∀ m ∈ defaults, Format.directionality? m.1 = none := by
    simp [defaults, Format.directionality?]
  intro v w d h hv
  obtain ⟨name, hname, hd⟩ := Option.bind_eq_some_iff.mp hv
  cases h with
  | drop before after hm =>
    obtain rfl := eq_of_mem_of_choice? hname List.mem_append_cons_self
    exact absurd (hdefault _ hm) (by simp [hd])
  | member before after name' h =>
    obtain ⟨rfl, rfl⟩ := Prod.mk.inj (eq_of_mem_of_choice? hname List.mem_append_cons_self)
    cases h
  | item => cases hname

theorem device : Keeps LeavesOut format.device :=
  record _ <|
    (required word? (by simp [defaults])).bind fun _ =>
    (required word? (by simp [defaults])).bind fun _ =>
    (required word? (by simp [defaults])).bind fun _ => .pure _

theorem wireType : Keeps LeavesOut format.wireType :=
  record _ <|
    (required text? (by simp [defaults])).bind fun _ =>
    (required word? (by simp [defaults])).bind fun _ =>
    (defaulted word? (by simp [defaults, Json.word?, nat, Word.count])).bind fun _ => .pure _

theorem rule : Keeps LeavesOut format.rule :=
  record _ <|
    (required (list text?) (by simp [defaults])).bind fun _ =>
    (required (list text?) (by simp [defaults])).bind fun _ =>
    (defaulted (nullable (list word?)) (by simp [defaults, nullable_null])).bind fun _ =>
    (defaulted (nullable (list word?)) (by simp [defaults, nullable_null])).bind fun _ =>
    (defaulted (nullable text?) (by simp [defaults, nullable_null])).bind fun _ => .pure _

/-- No default goes by the name of a side pair. -/
theorem permutations : Keeps LeavesOut format.permutations := by
  have hdefault : ∀ m ∈ defaults, SidePair.ofText m.1 = .error .length := by decide
  refine entries (foldlM ?_ ?_ ∅)
  · intro map name v w map' h hv
    dsimp only at hv ⊢
    cases hpair : SidePair.ofText name with
    | error e => rw [hpair] at hv; cases hv
    | ok p =>
      rw [hpair] at hv
      exact (list text?).bind (fun texts => .pure (map.insert p texts)) h hv
  · intro map m hm
    dsimp only
    rw [hdefault m hm]

theorem switchblock : Keeps LeavesOut format.switchblock :=
  record _ <|
    (required text? (by simp [defaults])).bind fun _ =>
    (required directionality (by simp [defaults])).bind fun _ =>
    (required text? (by simp [defaults, Json.text?])).bind fun _ =>
    (required (list rule) (by simp [defaults])).bind fun _ =>
    (defaulted permutations
      (by simp [defaults, Format.permutations, format, entries?])).bind fun _ => .pure _

end Keeps

/-- **Leaving out a default member changes nothing that is read.** -/
theorem Architecture.keeps_ofJson? : Keeps Json.LeavesOut ofJson? :=
  .record _ <|
    (Keeps.required .device (by simp [Json.defaults])).bind fun _ =>
    (Keeps.required .directionality (by simp [Json.defaults])).bind fun _ =>
    (Keeps.required (.list .wireType) (by simp [Json.defaults])).bind fun _ =>
    (Keeps.required (.list .switchblock) (by simp [Json.defaults])).bind fun _ => .pure _

end FpgaRouting
