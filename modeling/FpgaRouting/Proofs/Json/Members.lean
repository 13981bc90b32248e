import Mathlib
import FpgaRouting.Json.Basic

/-!
# Proofs/Json/Members — what an object holds

      { "b": 1, "a": 2, "b": 3 }   ──sortKeys──▸   { "a": 2, "b": 3 }

An object answers a name with the last member of that name, and **sorting its members changes no
answer** (`at?_sortKeys`).  Where the names are distinct no member is dropped either: sorting then
only reorders them.
-/

namespace FpgaRouting.Json

variable {name : String} {members : List (String × Json)}

/-! ## Answers -/

/-- What a value holds at a path of names. -/
def at? (v : Json) : List String → Option Json
  | [] => some v
  | name :: names =>
    match v with
    | object members => (member? name members).bind (·.at? names)
    | _ => none

@[simp] theorem at?_nil (v : Json) : v.at? [] = some v := rfl

theorem at?_object (members : List (String × Json)) (name : String) (names : List String) :
    (object members).at? (name :: names) = (member? name members).bind (·.at? names) := rfl

/-- The number of items, if the value is an array. -/
def itemCount : Json → Nat
  | array items => items.length
  | _ => 0

/-- **The last member of a name counts.** -/
theorem member?_append_singleton (members : List (String × Json)) (m : String × Json) :
    member? name (members ++ [m]) = if m.1 = name then some m.2 else member? name members := by
  rw [member?, member?, List.reverse_append, List.reverse_singleton, List.singleton_append,
    List.find?_cons]
  by_cases h : m.1 = name <;> simp [h]

/-- **Of distinct names each has one member.** -/
theorem member?_eq_some_iff (hdistinct : (members.map (·.1)).Nodup) {v : Json} :
    member? name members = some v ↔ (name, v) ∈ members := by
  induction members using List.reverseRecOn with
  | nil => simp [member?]
  | append_singleton members m ih =>
    rw [List.map_append, List.nodup_append] at hdistinct
    obtain ⟨hmembers, -, hnew⟩ := hdistinct
    rw [member?_append_singleton, List.mem_append, List.mem_singleton]
    split_ifs with hname
    · subst hname
      have hold : (m.1, v) ∉ members := fun hmem =>
        hnew m.1 (List.mem_map.mpr ⟨_, hmem, rfl⟩) m.1 (by simp) rfl
      rw [Option.some_inj, or_iff_right hold]
      exact ⟨fun h => h ▸ rfl, fun h => congrArg Prod.snd h.symm⟩
    · rw [ih hmembers, or_iff_left]
      exact fun h => hname (congrArg Prod.fst h.symm)

/-- **Keys of one map get distinct names**, if no two keys have one name. -/
theorem nodup_names {κ β : Type} {cmp : κ → κ → Ordering} [Std.TransCmp cmp] [Std.LawfulEqCmp cmp]
    {name : κ → String} (hname : Function.Injective name) (t : Std.ExtTreeMap κ β cmp) :
    (t.toList.map fun e => name e.1).Nodup := by
  refine List.pairwise_map.mpr (Std.ExtTreeMap.distinct_keys_toList.imp fun hne heq => hne ?_)
  exact Std.LawfulEqCmp.compare_eq_iff_eq.mpr (hname heq)

/-- The members of a map of names answer as the map. -/
theorem member?_toList (t : Std.ExtTreeMap String Json compare) :
    member? name t.toList = t[name]? :=
  Option.ext fun v => by
    rw [member?_eq_some_iff (nodup_names Function.injective_id t),
      Std.ExtTreeMap.mem_toList_iff_getElem?_eq_some]

/-! ## Sorting -/

theorem sortItems_eq_map (items : List Json) : sortItems items = items.map sortKeys := by
  induction items with
  | nil => rfl
  | cons item items ih => rw [sortItems, ih, List.map_cons]

theorem sortMembers_eq_map (members : List (String × Json)) :
    sortMembers members = members.map fun m => (m.1, m.2.sortKeys) := by
  induction members with
  | nil => rfl
  | cons m members ih => rw [sortMembers, ih, List.map_cons]

theorem sortKeys_array (items : List Json) : (array items).sortKeys = array (items.map sortKeys) := by
  rw [sortKeys, sortItems_eq_map]

theorem getElem?_ofList_sortMembers (members : List (String × Json)) (name : String) :
    (Std.ExtTreeMap.ofList (sortMembers members) compare)[name]?
      = (member? name members).map sortKeys := by
  rw [sortMembers_eq_map, Std.ExtTreeMap.ofList_eq_insertMany_empty]
  induction members using List.reverseRecOn with
  | nil => simp [member?]
  | append_singleton members m ih =>
    rw [List.map_append, List.map_singleton, Std.ExtTreeMap.insertMany_append,
      Std.ExtTreeMap.insertMany_list_singleton, Std.ExtTreeMap.getElem?_insert, ih,
      member?_append_singleton]
    by_cases h : m.1 = name <;> simp [h, Std.LawfulEqCmp.compare_eq_iff_eq]

/-- **Sorting changes no answer**, but sorts it. -/
theorem at?_sortKeys (v : Json) (names : List String) :
    v.sortKeys.at? names = (v.at? names).map sortKeys := by
  induction names generalizing v with
  | nil => rfl
  | cons name names ih =>
    cases v with
    | object members =>
      rw [sortKeys, at?_object, at?_object, member?_toList, getElem?_ofList_sortMembers]
      cases member? name members with
      | none => rfl
      | some value => exact ih value
    | null | bool | number | string => rfl
    | array items => rw [sortKeys]; rfl

/-- **Members of distinct names are only reordered by sorting**, each sorted itself. -/
theorem exists_perm_sortKeys (hdistinct : (members.map (·.1)).Nodup) :
    ∃ sorted, (object members).sortKeys = object sorted ∧ (sorted.map (·.1)).Nodup ∧
      sorted.Perm (members.map fun m => (m.1, m.2.sortKeys)) := by
  have hsorted : ((Std.ExtTreeMap.ofList (sortMembers members) compare).toList.map (·.1)).Nodup :=
    nodup_names Function.injective_id _
  have hnames : ((members.map fun m => (m.1, m.2.sortKeys)).map (·.1)).Nodup := by
    rw [List.map_map]
    exact hdistinct
  refine ⟨_, by rw [sortKeys], hsorted,
    (List.perm_ext_iff_of_nodup hsorted.of_map hnames.of_map).mpr ?_⟩
  rintro ⟨name, v⟩
  rw [← member?_eq_some_iff hsorted, member?_toList, getElem?_ofList_sortMembers]
  simp only [Option.map_eq_some_iff, member?_eq_some_iff hdistinct, List.mem_map, Prod.mk.injEq,
    Prod.exists]
  constructor
  · rintro ⟨w, hw, rfl⟩
    exact ⟨name, w, hw, rfl, rfl⟩
  · rintro ⟨_, w, hw, rfl, rfl⟩
    exact ⟨w, hw, rfl⟩

end FpgaRouting.Json
