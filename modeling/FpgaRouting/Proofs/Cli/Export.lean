import FpgaRouting.Cli.Run
import FpgaRouting.Proofs.Connections.Export

/-!
# Proofs/Cli/Export — the file that a build leaves behind

      build ──▸ summary, connections ──▸ document ──▸ file

      "summary":       { "keys": 2, "connections": 3, ... }
      "switchblocks":  { "connection_count": 3, "connections": { k: [a, b], l: [c] }, ... }

A run that ends well has passed its last step, and the last step of a build with an export writes
the document.  Its counts are taken from the map, and its connections are the members of the map;
so **the counts in the file are those of the connections in it** (`export_faithful`).
-/

namespace FpgaRouting

/-! ## The document -/

/-- Whether the counts that a document gives are those of the connections that it holds: the number
of keys once, and the number of all their targets in two places. -/
structure Json.CountsConnections (v : Json) (members : List (String × Json)) : Prop where
  connections : v.at? ["switchblocks", "connections"] = some (.object members)
  names : (members.map (·.1)).Nodup
  keys : v.at? ["summary", "keys"] = some (.nat members.length)
  summary : v.at? ["summary", "connections"]
    = some (.nat (members.map fun m => m.2.itemCount).sum)
  connectionCount : v.at? ["switchblocks", "connection_count"]
    = some (.nat (members.map fun m => m.2.itemCount).sum)

namespace Document

/-- **A value that is added is found sorted**, until another takes its name. -/
theorem at?_toJson_add (d : Document) (name name' : String) (value : Json) (names : List String) :
    (d.add name value).toJson.at? (name' :: names)
      = if name = name' then (value.at? names).map Json.sortKeys
        else d.toJson.at? (name' :: names) := by
  rw [toJson, toJson, Json.at?_object, Json.at?_object, Json.member?_toList, Json.member?_toList,
    add, Std.ExtTreeMap.getElem?_insert]
  by_cases h : name = name'
  · simp [h, Json.at?_sortKeys]
  · simp [h]

end Document

namespace Cli

theorem countsConnections_document (f : Fabric) (period : Option Nat) (longestPeriod workers : Nat)
    (built : Connections) :
    ∃ members, (document f period longestPeriod workers built).toJson.CountsConnections members := by
  obtain ⟨members, hsort, hnames, hperm⟩ := built.exists_sorted
  have hsize : members.length = built.size := by
    rw [hperm.length_eq, List.length_map]
    exact Std.ExtTreeMap.length_toList
  refine ⟨members, ?_, hnames, ?_, ?_, ?_⟩
  · rw [document, Document.at?_toJson_add, if_pos rfl]
    exact congrArg some hsort
  · rw [document, Document.at?_toJson_add, if_neg (by decide), Document.at?_toJson_add, if_pos rfl,
      hsize]
    rfl
  · rw [document, Document.at?_toJson_add, if_neg (by decide), Document.at?_toJson_add, if_pos rfl,
      built.sum_itemCount hperm]
    rfl
  · rw [document, Document.at?_toJson_add, if_pos rfl, built.sum_itemCount hperm]
    rfl

/-! ## Sessions on a directory -/

/-- **A file that has been written is found.** -/
theorem find?_of_write? {d d' : Directory} {path : String} {file : StoredFile}
    (h : d.write? path file = some d') : d'.find? path = some file := by
  rw [Directory.write?] at h
  obtain ⟨name, hname, h⟩ := Option.bind_eq_some_iff.mp h
  obtain rfl := Option.some.inj h
  rw [Directory.find?, hname]
  exact Std.ExtTreeMap.getElem?_insert_self

namespace Session

variable {m : Type → Type} {α β : Type} {Q : Directory → Prop}

/-- Whether a session that ends well leaves the directory so. -/
def Leaves (s : Session (StateM Directory) α) (Q : Directory → Prop) : Prop :=
  ∀ t d a t' d', (s.run.run t).run d = ((.ok a, t'), d') → Q d'

/-- **The last step decides** what is left. -/
theorem leaves_bind {s : Session (StateM Directory) α} {k : α → Session (StateM Directory) β}
    (h : ∀ a, (k a).Leaves Q) : (s >>= k).Leaves Q := by
  intro t d b t' d' hrun
  rw [ExceptT.run_bind, StateT.run_bind, StateT.run_bind] at hrun
  rcases hfirst : (s.run.run t).run d with ⟨⟨_ | a, t₁⟩, d₁⟩
  · rw [hfirst] at hrun
    cases hrun
  · rw [hfirst] at hrun
    exact h a t₁ d₁ b t' d' hrun

theorem exitCode_ne_zero (e : Ending) : e.exitCode ≠ 0 := by
  cases e <;> exact Nat.succ_ne_zero _

/-- **A report without an error is that of a session that ended well.** -/
theorem Leaves.of_report {level : Nat} {s : Session (StateM Directory) Unit} (h : s.Leaves Q)
    {d d' : Directory} {r : Report} (hrun : (report level s).run d = (r, d'))
    (hexit : r.exitCode = 0) : Q d' := by
  rw [report, StateT.run_bind] at hrun
  rcases hsession : (s.run.run {}).run d with ⟨⟨e | ⟨⟩, t⟩, d₁⟩
  · rw [hsession] at hrun
    cases hrun
    exact absurd hexit (exitCode_ne_zero e)
  · have hleft := h _ _ _ _ _ hsession
    rw [hsession] at hrun
    cases hrun
    exact hleft

theorem run_write (path : String) (file : StoredFile) (d : Directory) :
    (Files.inDirectory.write path file).run d
      = match d.write? path file with
        | some d' => (true, d')
        | none => (false, d) := by
  rw [Files.inDirectory]
  cases hwritten : d.write? path file <;> simp [hwritten] <;> rfl

/-- The last step of a build that exports. -/
def deliver [Monad m] (files : Files m) (path : String) (file : StoredFile) : Session m Unit := do
  if ← files.write path file then note (.exported path)
  else stop (.aborted ("can't write " ++ path))

/-- **A file that is exported is there at the end**, or the session does not end well. -/
theorem leaves_deliver {path : String} {file : StoredFile}
    (h : ∀ d : Directory, d.find? path = some file → Q d) :
    (deliver Files.inDirectory path file).Leaves Q := by
  intro t d a t' d' hrun
  rw [deliver, ExceptT.run_bind, StateT.run_bind, StateT.run_bind] at hrun
  have hfirst : ((liftM (Files.inDirectory.write path file) :
      Session (StateM Directory) Bool).run.run t).run d
        = ((.ok ((Files.inDirectory.write path file).run d).1, t),
          ((Files.inDirectory.write path file).run d).2) := rfl
  rw [hfirst, run_write] at hrun
  cases hwritten : d.write? path file with
  | none =>
    rw [hwritten] at hrun
    cases hrun
  | some d₁ =>
    rw [hwritten] at hrun
    cases hrun
    exact h _ (find?_of_write? hwritten)

end Session

open Session

/-- **What a build leaves behind**, if it is to export. -/
def Exported (path : String) (d : Directory) : Prop :=
  ∃ v members, (d.find? path).map (·.text) = some (Json.pretty v) ∧ v.CountsConnections members

theorem leaves_build (f : Fabric) (workers : Nat) (stamp : Bool) (path : String) :
    (build Files.inDirectory f workers stamp (some path)).Leaves (Exported path) := by
  have hlast : ∀ period longestPeriod built,
      (deliver Files.inDirectory path
        ((document f period longestPeriod workers built).file path)).Leaves (Exported path) := by
    intro period longestPeriod built
    refine leaves_deliver fun d hfile => ?_
    obtain ⟨members, hcounts⟩ :=
      countsConnections_document f period longestPeriod workers built
    exact ⟨_, members, by rw [hfile]; rfl, hcounts⟩
  rw [build]
  dsimp only
  split_ifs <;> refine leaves_bind fun plan => ?_ <;> refine leaves_bind fun longestPeriod => ?_
    <;> have hlast := hlast (plan.map (·.period)) longestPeriod
  · exact leaves_bind fun built => leaves_bind fun _ => hlast built
  · -- Several workers plan once more.
    exact leaves_bind fun _ => leaves_bind fun built => leaves_bind fun _ => hlast built
  · exact leaves_bind fun built => leaves_bind fun _ => hlast built
  · exact leaves_bind fun built => leaves_bind fun _ => hlast built

theorem leaves_perform {i : Invocation} {workers : Nat} {stamp : Bool} {path : String}
    (hcommand : i.command = .build workers stamp (some path)) :
    (perform Files.inDirectory i).Leaves (Exported path) := by
  have hrest : (do
      let f ← accept (← load Files.inDirectory i)
      build Files.inDirectory f workers stamp (some path) :
      Session (StateM Directory) Unit).Leaves (Exported path) :=
    leaves_bind fun _ => leaves_bind fun f => leaves_build f workers stamp path
  rw [perform, hcommand]
  cases workers with
  | zero => exact leaves_bind fun _ => hrest
  | succ workers => exact hrest

theorem exported_of_run {program : String} {level : Nat} {args : List String} {i : Invocation}
    {workers : Nat} {stamp : Bool} {path : String} (hparse : Invocation.parse args = .ok i)
    (hcommand : i.command = .build workers stamp (some path)) {d d' : Directory} {r : Report}
    (hrun : (run Files.inDirectory program level args).run d = (r, d')) (hexit : r.exitCode = 0) :
    Exported path d' := by
  rw [run, hparse] at hrun
  exact (leaves_perform hcommand).of_report hrun hexit

/-- **The JSON form of a map loses nothing.**  The text of a key reads back.  A map is written as an
object with one member for each of its keys, whose names are distinct, and which holds the targets
of the key in their order; so maps of one JSON form are equal, also if the members have been sorted
by their names.  And in the file of a build that ends well, the counts are those of the connections
in the file. -/
theorem export_faithful :
    (∀ k : Key, Key.ofText? k.text = some k) ∧
    (∀ m : Connections, ∃ members, m.toJson = .object members ∧ members.length = m.size ∧
      (members.map (·.1)).Nodup ∧ ∀ k : Key, Json.member? k.text members
        = (m.get? k).map fun ts => .array (ts.map Target.toJson)) ∧
    (∀ m n : Connections, m.toJson = n.toJson ∨ m.toJson.sortKeys = n.toJson.sortKeys → m = n) ∧
    ∀ (program : String) (level : Nat) (args : List String) (i : Invocation) (workers : Nat)
      (stamp : Bool) (path : String), Invocation.parse args = .ok i →
      i.command = .build workers stamp (some path) →
      ∀ (d d' : Directory) (r : Report),
        (run Files.inDirectory program level args).run d = (r, d') → r.exitCode = 0 →
        ∃ v members, (d'.find? path).map (·.text) = some (Json.pretty v) ∧
          v.CountsConnections members := by
  refine ⟨Key.ofText?_text, fun m => ⟨_, m.toJson_eq, ?_, m.nodup_names, m.member?_text⟩,
    fun m n h => ?_, ?_⟩
  · rw [List.length_map]
    exact Std.ExtTreeMap.length_toList
  · rcases h with h | h
    · exact Connections.toJson_injective h
    · exact Connections.sortKeys_toJson_injective h
  · intro program level args i workers stamp path hparse hcommand d d' r hrun hexit
    exact exported_of_run hparse hcommand hrun hexit

/-- A directory with the records of a device of one tile. -/
def oneTile : Directory :=
  ⟨(∅ : Std.ExtTreeMap String StoredFile compare).insert "tile.yaml" ⟨false,
    "device: \x7bwidth: 1, height: 1, channel_width: 1\x7d
directionality: bidirectional
wire_types: [\x7bname: w, length: 1\x7d]
switchblocks:
- name: s
  directionality: bidirectional
  switch_name: m
  wireconns: [\x7bfrom_type: [w], to_type: [w]\x7d]
  permutations: \x7bbl: [t]\x7d
"⟩⟩

/-- What is left of it by a build. -/
def oneTileBuilt : Report × Directory :=
  (run Files.inDirectory "sbgen" 0 ["tile.yaml", "build", "--json", "out.json"]).run oneTile

theorem exitCode_oneTileBuilt : oneTileBuilt.1.exitCode = 0 := by decide +kernel

theorem export_faithful_oneTile : oneTileBuilt.1.exitCode = 0 ∧
    ∃ v members, (oneTileBuilt.2.find? "out.json").map (·.text) = some (Json.pretty v) ∧
      v.CountsConnections members := by
  have hparse : Invocation.parse ["tile.yaml", "build", "--json", "out.json"]
      = .ok ⟨"tile.yaml", false, .build 1 true (some "out.json")⟩ := rfl
  have hrun : (run Files.inDirectory "sbgen" 0 ["tile.yaml", "build", "--json", "out.json"]).run
      oneTile = (oneTileBuilt.1, oneTileBuilt.2) := by
    rw [Prod.mk.eta, oneTileBuilt]
  exact ⟨exitCode_oneTileBuilt, export_faithful.2.2.2 "sbgen" 0 _ _ 1 true "out.json" hparse rfl oneTile
    oneTileBuilt.2 oneTileBuilt.1 hrun exitCode_oneTileBuilt⟩

end Cli

end FpgaRouting
