import FpgaRouting.Connections.Export
import FpgaRouting.Proofs.Connections.Additions
import FpgaRouting.Proofs.Formula.Spelling
import FpgaRouting.Proofs.Json.Members

/-!
# Proofs/Connections/Export — the JSON form of a map loses nothing

      ⟨12, 3, bottom, top, 40⟩   ──text──▸   "12,3,b,t,40"   ──ofText?──▸   the same key

A key is flattened to a text of five parts, and no part holds a comma, so that **the text of a key
reads back** (`ofText?_text`).  Each key therefore has a member of its own in the JSON form of a map,
and maps of one JSON form are equal, also after the members have been sorted by their names.
-/

namespace FpgaRouting

/-! ## Keys as texts -/

theorem Text.number?_toString (n : Nat) : number? 10 (toString n).toList = some n := by
  have hdigits : (toString n).toList = Nat.toDigits 10 n := Nat.toList_repr
  rw [hdigits, Formula.number?_of_isDigit Nat.toDigits_ne_nil fun c hc =>
    Nat.isDigit_of_mem_toDigits (by decide) (by decide) hc, Nat.ofDigitChars_ten_toDigits]

theorem not_comma_mem_toString (n : Nat) : ',' ∉ (toString n).toList := by
  intro hmem
  have hdigit : Char.isDigit ',' = true :=
    Nat.isDigit_of_mem_toDigits (by decide) (by decide) (Nat.toList_repr ▸ hmem)
  exact absurd hdigit (by decide)

namespace Key

/-- The side that a single letter names. -/
def sideOf? : List Char → Option Side
  | [c] => Side.ofCode? c
  | _ => none

/-- The key that a text spells. -/
def ofText? (text : String) : Option Key :=
  match text.toList.splitOn ',' with
  | [x, y, enter, leave, track] => do
    return ⟨← Text.number? 10 x, ← Text.number? 10 y, ← sideOf? enter, ← sideOf? leave,
      ← Text.number? 10 track⟩
  | _ => none

theorem toList_text (k : Key) :
    k.text.toList = [','].intercalate [(toString k.x).toList, (toString k.y).toList,
      [k.enter.code], [k.leave.code], (toString k.track).toList] := by
  simp [text, List.intercalate, List.intersperse]

/-- **The text of a key reads back**, whatever its numbers. -/
theorem ofText?_text (k : Key) : ofText? k.text = some k := by
  have hcode : ∀ side : Side, ',' ∉ [side.code] := by
    intro side
    cases side <;> decide
  rw [ofText?, toList_text, List.splitOn_intercalate _ ?_ (List.cons_ne_nil _ _)]
  · simp only [Text.number?_toString, sideOf?, Side.ofCode?_code]
    rfl
  · simp only [List.forall_mem_cons]
    exact ⟨not_comma_mem_toString _, not_comma_mem_toString _, hcode _, hcode _,
      not_comma_mem_toString _, List.forall_mem_nil _⟩

/-- **No two keys have one text.** -/
theorem text_injective : Function.Injective text := fun k l h =>
  Option.some.inj ((ofText?_text k).symm.trans ((congrArg ofText? h).trans (ofText?_text l)))

end Key

/-! ## Targets and entries as values -/

namespace Target

theorem toJson_injective : Function.Injective toJson := by
  rintro ⟨track, name⟩ ⟨track', name'⟩ h
  simpa [toJson, Json.nat] using h

theorem sortKeys_toJson_injective : Function.Injective fun t : Target => t.toJson.sortKeys := by
  intro t u h
  have hat : ∀ names, (t.toJson.at? names).map Json.sortKeys
      = (u.toJson.at? names).map Json.sortKeys := by
    intro names
    rw [← Json.at?_sortKeys, ← Json.at?_sortKeys, show t.toJson.sortKeys = u.toJson.sortKeys from h]
  have htrack := hat ["to_track"]
  have hname := hat ["switch_name"]
  obtain ⟨track, name⟩ := t
  obtain ⟨track', name'⟩ := u
  simp [toJson, Json.at?_object, Json.member?, Json.sortKeys, Json.nat] at htrack hname
  rw [htrack, hname]

end Target

namespace Connections

/-- The member that an entry is written as. -/
def member (e : Key × List Target) : String × Json := (e.1.text, .array (e.2.map Target.toJson))

/-- The same member with sorted targets. -/
def sortedMember (e : Key × List Target) : String × Json := ((member e).1, (member e).2.sortKeys)

theorem toJson_eq (m : Connections) : m.toJson = .object (m.toList.map member) := rfl

theorem member_injective : Function.Injective member := by
  rintro ⟨k, ts⟩ ⟨l, us⟩ h
  obtain ⟨hname, hvalue⟩ := Prod.mk.inj h
  obtain rfl : k = l := Key.text_injective hname
  obtain rfl : ts = us := List.map_injective_iff.mpr Target.toJson_injective (Json.array.inj hvalue)
  rfl

theorem sortedMember_injective : Function.Injective sortedMember := by
  rintro ⟨k, ts⟩ ⟨l, us⟩ h
  obtain ⟨hname, hvalue⟩ := Prod.mk.inj h
  obtain rfl : k = l := Key.text_injective hname
  simp only [member, Json.sortKeys_array, List.map_map, Json.array.injEq] at hvalue
  obtain rfl : ts = us := List.map_injective_iff.mpr Target.sortKeys_toJson_injective hvalue
  rfl

variable {m n : Connections}

/-- **The members of a map have distinct names.** -/
theorem nodup_names (m : Connections) : ((m.toList.map member).map (·.1)).Nodup := by
  rw [List.map_map]
  exact Json.nodup_names Key.text_injective _

/-- **A key is answered with its targets**, in their order. -/
theorem member?_text (m : Connections) (k : Key) :
    Json.member? k.text (m.toList.map member)
      = (m.get? k).map fun ts => .array (ts.map Target.toJson) := by
  refine Option.ext fun v => ?_
  rw [Json.member?_eq_some_iff m.nodup_names, List.mem_map, Option.map_eq_some_iff]
  constructor
  · rintro ⟨⟨l, ts⟩, hmem, heq⟩
    obtain ⟨hname, rfl⟩ := Prod.mk.inj heq
    obtain rfl := Key.text_injective hname
    exact ⟨ts, mem_toList.mp hmem, rfl⟩
  · rintro ⟨ts, hts, rfl⟩
    exact ⟨(k, ts), mem_toList.mpr hts, rfl⟩

theorem eq_of_mem_toList_iff (h : ∀ e, e ∈ m.toList ↔ e ∈ n.toList) : m = n :=
  ext_get? fun k => Option.ext fun ts => by rw [← mem_toList, ← mem_toList, h]

/-- **Maps of one JSON form are one map.** -/
theorem toJson_injective : Function.Injective toJson := by
  intro m n h
  have hmembers : m.toList.map member = n.toList.map member := Json.object.inj h
  have hlist := List.map_injective_iff.mpr member_injective hmembers
  exact eq_of_mem_toList_iff fun e => by rw [hlist]

/-- What sorting makes of the members. -/
theorem exists_sorted (m : Connections) :
    ∃ sorted, m.toJson.sortKeys = .object sorted ∧ (sorted.map (·.1)).Nodup ∧
      sorted.Perm (m.toList.map sortedMember) := by
  obtain ⟨sorted, hsort, hnames, hperm⟩ := Json.exists_perm_sortKeys m.nodup_names
  rw [List.map_map] at hperm
  exact ⟨sorted, hsort, hnames, hperm⟩

/-- **The order of the members does not matter** for that. -/
theorem sortKeys_toJson_injective : Function.Injective fun m : Connections => m.toJson.sortKeys := by
  intro m n h
  obtain ⟨sorted, hsort, -, hperm⟩ := m.exists_sorted
  obtain ⟨sorted', hsort', -, hperm'⟩ := n.exists_sorted
  obtain rfl : sorted = sorted' := Json.object.inj (hsort.symm.trans (h.trans hsort'))
  refine eq_of_mem_toList_iff fun e => ?_
  rw [← List.mem_map_of_injective sortedMember_injective, ← hperm.mem_iff, hperm'.mem_iff,
    List.mem_map_of_injective sortedMember_injective]

/-! ## Counts -/

/-- **The items of all members are the targets of all keys.** -/
theorem sum_itemCount {sorted : List (String × Json)} (h : sorted.Perm (m.toList.map sortedMember)) :
    (sorted.map fun s => s.2.itemCount).sum = m.targetCount := by
  have hcount : ∀ e : Key × List Target, (sortedMember e).2.itemCount = e.2.length := by
    intro e
    simp [sortedMember, member, Json.sortKeys_array, Json.itemCount]
  rw [(h.map _).sum_eq, List.map_map, targetCount, List.length_flatMap]
  exact congrArg List.sum (List.map_congr_left fun e _ => hcount e)

end Connections

end FpgaRouting
