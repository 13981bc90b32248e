import Std.Data.ExtTreeMap
import FpgaRouting.Text.Blank

/-!
# Side — the four sides of a switchblock

A switchblock meets one channel at each of its sides.  Sides are ordered top, right, bottom, left,
and pairs of sides lexicographically; **both orders are linear, and equal in the order means
equal**, so that finite maps can be keyed by them.
-/

namespace FpgaRouting

inductive Side
  | top
  | right
  | bottom
  | left
deriving DecidableEq, Repr

namespace Side

/-- All sides, in their order. -/
def all : List Side := [top, right, bottom, left]

def name : Side → String
  | top => "top"
  | right => "right"
  | bottom => "bottom"
  | left => "left"

def code : Side → Char
  | top => 't'
  | right => 'r'
  | bottom => 'b'
  | left => 'l'

def ofCode? : Char → Option Side
  | 't' => some top
  | 'r' => some right
  | 'b' => some bottom
  | 'l' => some left
  | _ => none

/-- A side is written as its name or its one-letter code, in either case of ASCII. -/
def ofText? (text : String) : Option Side :=
  match text.toLower.toList with
  | [c] => ofCode? c
  | cs => all.find? (·.name.toList = cs)

/-- The left and the bottom side see a wire one phase later than the other two. -/
def isLow : Side → Bool
  | left | bottom => true
  | top | right => false

/-- The place in the order of sides. -/
def rank : Side → Nat
  | top => 0
  | right => 1
  | bottom => 2
  | left => 3

instance : Ord Side := ⟨compareOn rank⟩

theorem rank_injective {s s' : Side} (h : s.rank = s'.rank) : s = s' := by
  cases s <;> cases s' <;> first | rfl | simp [rank] at h

instance : Std.TransOrd Side := inferInstanceAs (Std.TransCmp (compareOn rank))

instance : Std.LawfulEqOrd Side where
  compare_self := Std.ReflCmp.compare_self
  eq_of_compare h := rank_injective (Nat.compare_eq_eq.mp h)

/-- **A code names one side.** -/
@[simp] theorem ofCode?_code (s : Side) : ofCode? s.code = some s := by cases s <;> rfl

/-- The message about a text that is no side. -/
def unknownMessage (text : String) : String :=
  "Unknown switchblock side \"" ++ text ++ "\""

end Side

/-- An ordered pair of distinct sides: a connection enters through one and leaves through the
other. -/
structure SidePair where
  enter : Side
  leave : Side
  enter_ne_leave : enter ≠ leave
deriving DecidableEq, Repr

namespace SidePair

/-- The pair of two sides, if they differ. -/
def of? (enter leave : Side) : Option SidePair :=
  if h : enter ≠ leave then some ⟨enter, leave, h⟩ else none

def swap (p : SidePair) : SidePair := ⟨p.leave, p.enter, p.enter_ne_leave.symm⟩

/-- The twelve pairs, in their order. -/
def all : List SidePair :=
  Side.all.flatMap fun enter => Side.all.filterMap fun leave => of? enter leave

/-- The two letters that name a pair. -/
def code (p : SidePair) : String := String.ofList [p.enter.code, p.leave.code]

instance : Ord SidePair := ⟨compareLex (compareOn enter) (compareOn leave)⟩

theorem ext {p q : SidePair} (he : p.enter = q.enter) (hl : p.leave = q.leave) : p = q := by
  obtain ⟨e, l, h⟩ := p
  subst he hl
  rfl

instance : Std.TransOrd SidePair :=
  inferInstanceAs (Std.TransCmp (compareLex (compareOn enter) (compareOn leave)))

instance : Std.LawfulEqOrd SidePair where
  compare_self := Std.ReflCmp.compare_self
  eq_of_compare {p q} h := by
    have h' : compareLex (compareOn enter) (compareOn leave) p q = .eq := h
    rw [compareLex_eq_eq] at h'
    exact ext (Std.LawfulEqOrd.eq_of_compare h'.1) (Std.LawfulEqOrd.eq_of_compare h'.2)

/-- Why a text is no side pair. -/
inductive Error
  | length
  | unknownSide (letter : Char)
  | loop
deriving DecidableEq, Repr

def Error.message (text : String) : Error → String
  | .length => "Side pair \"" ++ text ++ "\" must consist of two side letters"
  | .unknownSide c => "Unknown side '" ++ c.toString ++ "' in \"" ++ text ++ "\""
  | .loop => "Side pair \"" ++ text ++ "\" connects a side to itself"

/-- A pair is written as two letters, in either case of ASCII, with white space around them.  The
first letter is judged first. -/
def ofText (text : String) : Except Error SidePair :=
  match (Text.trim text.toList).map Char.toLower with
  | [c, d] =>
    match Side.ofCode? c, Side.ofCode? d with
    | none, _ => .error (.unknownSide c)
    | some _, none => .error (.unknownSide d)
    | some enter, some leave =>
      match of? enter leave with
      | some p => .ok p
      | none => .error .loop
  | _ => .error .length

end SidePair

end FpgaRouting
