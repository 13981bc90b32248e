import Mathlib
import FpgaRouting.Connections.Basic

/-!
# Proofs/Connections/Ranges — the keys of a tile lie side by side

      ── (2, 6, left, …) ──│── (2, 7, top, …) ─── (2, 7, left, …) ──│── (2, 8, top, …) ──▸
                           first                                  last
                           └────────── the tile (2, 7) ───────────┘

The entries of a map are listed in the order of their keys, and keys are ordered by their tile first.
A range query cuts a stretch out of that list: it passes over what stands before one key and ends
with the last entry up to another.  **Between the least and the greatest key of a tile stand the
entries of that tile, all of them and no others** (`between_first_last`).
-/

namespace FpgaRouting

/-! ## Stretches of a list -/

section

variable {α : Type} {p : α → Bool} {as : List α}

/-- What holds of a member only if it holds of all before it, holds of the front of the list. -/
theorem takeWhile_eq_filter (h : as.Pairwise fun a b => p b = true → p a = true) :
    as.takeWhile p = as.filter p := by
  induction as with
  | nil => rfl
  | cons a as ih =>
    obtain ⟨ha, has⟩ := List.pairwise_cons.mp h
    by_cases hp : p a = true
    · rw [List.takeWhile_cons_of_pos hp, List.filter_cons_of_pos hp, ih has]
    · have hnone : as.filter p = [] := List.filter_eq_nil_iff.mpr fun b hb hpb => hp (ha b hb hpb)
      rw [List.takeWhile_cons_of_neg hp, List.filter_cons_of_neg hp, hnone]

theorem dropWhile_eq_filter (h : as.Pairwise fun a b => p b = true → p a = true) :
    as.dropWhile p = as.filter fun a => !p a := by
  induction as with
  | nil => rfl
  | cons a as ih =>
    obtain ⟨ha, has⟩ := List.pairwise_cons.mp h
    by_cases hp : p a = true
    · rw [List.dropWhile_cons_of_pos hp, ih has, List.filter_cons_of_neg (by simp [hp])]
    · have hall : as.filter (fun b => !p b) = as := by
        refine List.filter_eq_self.mpr fun b hb => ?_
        simpa using fun hpb => hp (ha b hb hpb)
      rw [List.dropWhile_cons_of_neg hp, List.filter_cons_of_pos (by simp [hp]), hall]

end

/-! ## The order of keys -/

theorem Side.rank_le (side : Side) : side.rank ≤ Side.left.rank := by
  cases side <;> decide

namespace Key

/-- The least key at a tile. -/
def first (t : Tile) : Key := ⟨t.x, t.y, .top, .top, 0⟩

/-- The greatest key at a tile whose track is a word. -/
def last (t : Tile) : Key := ⟨t.x, t.y, .left, .left, 2 ^ 64 - 1⟩

/-- **Keys are compared field by field**, the tile first and the track last. -/
theorem isLE_compare_iff {k l : Key} :
    (compare k l).isLE = true ↔ k.x < l.x ∨ k.x = l.x ∧ (k.y < l.y ∨ k.y = l.y ∧
      (k.enter.rank < l.enter.rank ∨ k.enter.rank = l.enter.rank ∧
        (k.leave.rank < l.leave.rank ∨ k.leave.rank = l.leave.rank ∧ k.track ≤ l.track))) := by
  have horder : compare k l = order k l := rfl
  have hside : ∀ s s' : Side, compare s s' = compare s.rank s'.rank := fun _ _ => rfl
  simp only [horder, order, compareLex, compareOn, hside, Ordering.isLE_then_iff_or,
    Nat.compare_eq_lt, Nat.compare_eq_eq, Nat.isLE_compare]

/-- **Between the least and the greatest key of a tile are the keys of the tile.** -/
theorem between_iff {k : Key} {t : Tile} (htrack : k.track < 2 ^ 64) :
    (compare (first t) k).isLE = true ∧ (compare k (last t)).isLE = true ↔ k.tile = t := by
  have henter := k.enter.rank_le
  have hleave := k.leave.rank_le
  have htop : Side.top.rank = 0 := rfl
  obtain ⟨x, y⟩ := t
  simp only [isLE_compare_iff, first, last, tile, Tile.mk.injEq, htop]
  omega

end Key

namespace Connections

variable {m : Connections}

/-! ## Range queries -/

/-- The entries from one key to another: those before the first of them are passed over, and the
next ones taken as far as the other. -/
def between (m : Connections) (k l : Key) : List (Key × List Target) :=
  (m.toList.dropWhile fun e => compare e.1 k = .lt).takeWhile fun e => (compare e.1 l).isLE

/-- **A range query answers with every entry between its keys.** -/
theorem between_eq_filter (m : Connections) (k l : Key) :
    m.between k l
      = m.toList.filter fun e => (compare k e.1).isLE = true ∧ (compare e.1 l).isLE = true := by
  have hordered : m.toList.Pairwise fun e e' => compare e.1 e'.1 = .lt :=
    Std.ExtTreeMap.ordered_keys_toList
  have hfrom : m.toList.Pairwise fun e e' =>
      decide (compare e'.1 k = .lt) = true → decide (compare e.1 k = .lt) = true :=
    hordered.imp fun hlt hlt' => decide_eq_true (Std.TransCmp.lt_trans hlt (of_decide_eq_true hlt'))
  have hto : m.toList.Pairwise fun e e' =>
      (compare e'.1 l).isLE = true → (compare e.1 l).isLE = true :=
    hordered.imp fun hlt hle => Std.TransCmp.isLE_trans (Ordering.isLE_of_eq_lt hlt) hle
  rw [between, dropWhile_eq_filter hfrom, takeWhile_eq_filter (hto.sublist List.filter_sublist),
    List.filter_filter]
  refine List.filter_congr fun e _ => ?_
  have hfirst : ¬ compare e.1 k = .lt ↔ (compare k e.1).isLE = true := by
    rw [← Std.OrientedCmp.isGE_iff_isLE, Ordering.isGE_iff_ne_lt]
  simp only [← hfirst, Bool.decide_and, decide_not, Bool.decide_coe, Bool.and_comm]

/-- **The entries at a tile are those between its least and its greatest key**, if tracks are
words. -/
theorem between_first_last (hwords : ∀ k, m.contains k = true → k.track < 2 ^ 64) (t : Tile) :
    m.between (.first t) (.last t) = m.atTile t := by
  rw [between_eq_filter, atTile]
  refine List.filter_congr fun e he => decide_eq_decide.mpr (Key.between_iff (hwords e.1 ?_))
  exact Option.isSome_iff_exists.mpr ⟨e.2, mem_toList.mp he⟩

end Connections

end FpgaRouting
