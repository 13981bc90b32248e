import FpgaRouting.Channel.Layout

/-!
# Channel/Candidates — the tracks that one end of a rule may touch

A unidirectional wire enters a switchblock on the side where it is consumed and leaves on the side
where it is driven.  A source seen on the top or the right side therefore runs towards decreasing
coordinates, and a destination there towards increasing ones.

`candidates` goes through the types and wirepoints of a rule one by one and **lists each track once,
in ascending order**, whatever their order and repetition.
-/

namespace FpgaRouting

namespace Side

/-- The heading of a source that enters through a side. -/
def sourceHeading (s : Side) : Directionality → Heading
  | .bidirectional => .both
  | .unidirectional => if s.isLow then .increasing else .decreasing

/-- The heading of a destination that leaves through a side. -/
def destinationHeading (s : Side) : Directionality → Heading
  | .bidirectional => .both
  | .unidirectional => if s.isLow then .decreasing else .increasing

end Side

/-- Puts a number into its place in an ascending list, unless it is there. -/
def insertAscending (n : Nat) : List Nat → List Nat
  | [] => [n]
  | m :: ms =>
    if n < m then n :: m :: ms
    else if n = m then m :: ms
    else m :: insertAscending n ms

/-- The members of a list, ascending and without repetition. -/
def ascending (ns : List Nat) : List Nat := ns.foldr insertAscending []

theorem mem_insertAscending {n k : Nat} {ms : List Nat} :
    k ∈ insertAscending n ms ↔ k = n ∨ k ∈ ms := by
  induction ms with
  | nil => simp [insertAscending]
  | cons m ms ih => grind [insertAscending]

/-- **Nothing is lost and nothing added.** -/
@[simp] theorem mem_ascending {k : Nat} {ns : List Nat} : k ∈ ascending ns ↔ k ∈ ns := by
  induction ns with
  | nil => simp [ascending]
  | cons n ns ih => simp_all [ascending, mem_insertAscending]

theorem pairwise_insertAscending {n : Nat} {ms : List Nat} (h : ms.Pairwise (· < ·)) :
    (insertAscending n ms).Pairwise (· < ·) := by
  induction ms with
  | nil => simp [insertAscending]
  | cons m ms ih =>
    obtain ⟨hm, hms⟩ := List.pairwise_cons.mp h
    simp only [insertAscending]
    split
    · next hlt =>
      refine List.pairwise_cons.mpr ⟨fun k hk => ?_, h⟩
      rcases List.mem_cons.mp hk with rfl | hk
      · exact hlt
      · exact Nat.lt_trans hlt (hm k hk)
    · split
      · exact h
      · next hle hne =>
        refine List.pairwise_cons.mpr ⟨fun k hk => ?_, ih hms⟩
        rcases mem_insertAscending.mp hk with rfl | hk
        · omega
        · exact hm k hk

/-- **The list is strictly ascending.** -/
theorem pairwise_ascending (ns : List Nat) : (ascending ns).Pairwise (· < ·) := by
  induction ns with
  | nil => simp [ascending]
  | cons n ns ih => exact pairwise_insertAscending ih

namespace Channel

/-- The tracks of a wire type at some wirepoints, every one if no points are given.  A wirepoint
that wires of this length do not have is passed over. -/
def typeCandidates (c : Channel) (side : Side) (points : Option (List Nat)) (heading : Heading)
    (wireType : Nat) : Outcome (List Nat) := do
  match c.firstOfType? wireType with
  | none => return []
  | some start =>
    match points with
    | none => return c.tracksOfType wireType heading
    | some points =>
      let length := (← c.track start).length
      let found ← (points.filter (· < length)).mapM fun wirepoint => do
        let group ← groupSeen wirepoint length side
        c.tracksOfGroup wireType group heading
      return found.flatten

/-- The tracks that one end of a rule may touch, as a side observes them. -/
def candidates (c : Channel) (side : Side) (types : List Nat) (points : Option (List Nat))
    (heading : Heading) : Outcome (List Nat) := do
  return ascending (← types.mapM (c.typeCandidates side points heading)).flatten

end Channel

end FpgaRouting
