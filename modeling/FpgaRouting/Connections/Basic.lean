import Std.Data.ExtTreeMap
import FpgaRouting.Channel.Coord

/-!
# Connections/Basic — where each track goes on

`Connections` is a sparse, ordered map.  A key is a track that enters the switchblock of a tile
through one side and asks for another; it leads to a list of targets.  **A key that is present has
at least one target and none twice**, in the order in which they were first added, and the keys are
ordered by column, row, entering side, leaving side and track.
-/

namespace FpgaRouting

/-- A source track at a switchblock, and the side it is to leave through. -/
structure Key where
  x : Nat
  y : Nat
  enter : Side
  leave : Side
  track : Nat
deriving DecidableEq, Repr

namespace Key

def tile (k : Key) : Tile := ⟨k.x, k.y⟩

/-- The same key at another tile. -/
def movedTo (k : Key) (t : Tile) : Key := { k with x := t.x, y := t.y }

/-- The order of keys. -/
def order : Key → Key → Ordering :=
  compareLex (compareOn x) <| compareLex (compareOn y) <| compareLex (compareOn enter) <|
    compareLex (compareOn leave) (compareOn track)

instance : Ord Key := ⟨order⟩

instance : Std.TransOrd Key := by
  change Std.TransCmp order
  unfold order
  infer_instance

instance : Std.LawfulEqOrd Key where
  compare_self := Std.ReflCmp.compare_self
  eq_of_compare {k l} h := by
    have h' : order k l = .eq := h
    simp only [order, compareLex_eq_eq, compareOn] at h'
    obtain ⟨hx, hy, he, hl, ht⟩ := h'
    cases k
    cases l
    simp_all

/-- The written form of a key: `x,y,enter,leave,track`, with one-letter sides. -/
def text (k : Key) : String :=
  toString k.x ++ "," ++ toString k.y ++ "," ++ k.enter.code.toString ++ ","
    ++ k.leave.code.toString ++ "," ++ toString k.track

end Key

/-- A track that a source goes on to, and the switch that joins the two. -/
structure Target where
  track : Nat
  switchName : String
deriving DecidableEq, Repr

/-- Appends a member to a list that lacks it. -/
def addOnce {α : Type} [DecidableEq α] (as : List α) (a : α) : List α :=
  if a ∈ as then as else as ++ [a]

theorem mem_addOnce {α : Type} [DecidableEq α] {as : List α} {a b : α} :
    b ∈ addOnce as a ↔ b ∈ as ∨ b = a := by
  unfold addOnce
  split <;> simp_all

theorem nodup_addOnce {α : Type} [DecidableEq α] {as : List α} {a : α} (h : as.Nodup) :
    (addOnce as a).Nodup := by
  unfold addOnce
  split
  · exact h
  · next ha =>
    refine List.nodup_append.mpr ⟨h, by simp, fun b hb c hc => ?_⟩
    rw [List.mem_singleton.mp hc]
    exact fun hba => ha (hba ▸ hb)

/-- The connections of switchblocks. -/
structure Connections where
  targets : Std.ExtTreeMap Key (List Target) compare
  valid : ∀ (k : Key) (ts : List Target), targets[k]? = some ts → ts ≠ [] ∧ ts.Nodup

namespace Connections

@[ext]
theorem ext' {m n : Connections} (h : m.targets = n.targets) : m = n := by
  cases m
  cases n
  subst h
  rfl

instance : DecidableEq Connections := fun m n =>
  if h : m.targets = n.targets then isTrue (ext' h)
  else isFalse fun hmn => h (congrArg targets hmn)

/-- No connections. -/
def empty : Connections := ⟨∅, by simp⟩

/-- The targets of a key, none if the key is absent. -/
def get? (m : Connections) (k : Key) : Option (List Target) := m.targets[k]?

def contains (m : Connections) (k : Key) : Bool := (m.get? k).isSome

/-- The keys with their targets, in the order of the keys. -/
def toList (m : Connections) : List (Key × List Target) := m.targets.toList

/-- The number of keys. -/
def size (m : Connections) : Nat := m.targets.size

def isEmpty (m : Connections) : Bool := m.targets.isEmpty

/-- The number of pairs of a key and a target. -/
def targetCount (m : Connections) : Nat := (m.toList.flatMap (·.2)).length

/-- Adds a target to a key, unless it is there. -/
def add (m : Connections) (k : Key) (t : Target) : Connections where
  targets := m.targets.alter k fun ts => some (addOnce (ts.getD []) t)
  valid l ts h := by
    rw [Std.ExtTreeMap.getElem?_alter] at h
    split at h
    · obtain rfl := Option.some.inj h
      refine ⟨List.ne_nil_of_mem (mem_addOnce.mpr (.inr rfl)), nodup_addOnce ?_⟩
      cases hk : m.targets[k]? with
      | none => simp
      | some us => simpa using (m.valid k us hk).2
    · exact m.valid l ts h

/-- Adds a target to a key, and says whether it was missing there. -/
def addIfNew (m : Connections) (k : Key) (t : Target) : Bool × Connections :=
  if t ∈ (m.get? k).getD [] then (false, m) else (true, m.add k t)

/-- Whether a key has a target. -/
def Has (m : Connections) (k : Key) (t : Target) : Prop := t ∈ (m.get? k).getD []

instance (m : Connections) (k : Key) (t : Target) : Decidable (m.Has k t) :=
  inferInstanceAs (Decidable (_ ∈ _))

/-- Adds a list of targets to a key, one after another. -/
def addAll (m : Connections) (k : Key) (ts : List Target) : Connections :=
  ts.foldl (·.add k ·) m

/-- Adds the connections of another map, key by key. -/
def merge (m n : Connections) : Connections :=
  n.toList.foldl (fun m (k, ts) => m.addAll k ts) m

/-- The entries of the switchblock at a tile: those between its first and its last key. -/
def atTile (m : Connections) (t : Tile) : List (Key × List Target) :=
  m.toList.filter fun (k, _) => k.tile = t

/-- The entries of all tiles, in one pass. -/
def byTile (m : Connections) : Std.ExtTreeMap Tile (List (Key × List Target)) compare :=
  m.toList.foldr (fun e tiles => tiles.alter e.1.tile fun es => some (e :: es.getD [])) ∅

/-! ## Small lemmas -/

/-- **Two maps that answer alike are the same map.** -/
theorem ext_get? {m n : Connections} (h : ∀ k, m.get? k = n.get? k) : m = n :=
  ext' (Std.ExtTreeMap.ext_getElem? h)

@[simp] theorem get?_empty (k : Key) : empty.get? k = none := by simp [get?, empty]

theorem get?_add (m : Connections) (k l : Key) (t : Target) :
    (m.add k t).get? l
      = if k = l then some (addOnce ((m.get? k).getD []) t) else m.get? l := by
  simp [get?, add, Std.ExtTreeMap.getElem?_alter, Std.LawfulEqCmp.compare_eq_iff_eq]

theorem mem_toList {m : Connections} {k : Key} {ts : List Target} :
    (k, ts) ∈ m.toList ↔ m.get? k = some ts :=
  Std.ExtTreeMap.mem_toList_iff_getElem?_eq_some

theorem getD_byTile (m : Connections) (t : Tile) : (m.byTile[t]?).getD [] = m.atTile t := by
  unfold byTile atTile
  induction m.toList with
  | nil => simp
  | cons e es ih =>
    rw [List.foldr_cons, Std.ExtTreeMap.getElem?_alter, List.filter_cons, ← ih]
    by_cases h : e.1.tile = t
    · subst h
      simp
    · simp [h, Std.LawfulEqCmp.compare_eq_iff_eq]

end Connections

end FpgaRouting
