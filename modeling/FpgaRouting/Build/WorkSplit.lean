/-!
# Build/WorkSplit — dividing work evenly

A range of work is divided into consecutive parts whose lengths differ by at most one, **the longer
parts first**.  There are no empty parts, so there may be fewer than were asked for.
-/

namespace FpgaRouting

/-- A range of work, the end exclusive. -/
structure Part where
  start : Nat
  stop : Nat
deriving DecidableEq, Repr

namespace Part

/-- The members of a list in a part of it. -/
def slice {α : Type} (p : Part) (as : List α) : List α := (as.drop p.start).take (p.stop - p.start)

/-- Consecutive parts from `start` on, the first `longer` of which have one more than `size`. -/
def consecutive (start size longer : Nat) : Nat → List Part
  | 0 => []
  | parts + 1 =>
    let stop := start + size + (if 0 < longer then 1 else 0)
    ⟨start, stop⟩ :: consecutive stop size (longer - 1) parts

/-- The parts of a range for a number of workers; no workers count as one. -/
def split (start stop workers : Nat) : List Part :=
  let length := stop - start
  let workers := max workers 1
  consecutive start (length / workers) (length % workers) (min workers length)

end Part

end FpgaRouting
