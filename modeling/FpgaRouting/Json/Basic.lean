import Std.Data.ExtTreeMap

/-!
# Json/Basic — JSON values

Numbers are integers; nothing here needs a fraction.  The members of an object stand in the order
in which they are written, and `sortKeys` puts them into the order of their names: code point by
code point, which is also the order of their UTF-8 bytes.  **Of members with one name the last
remains.**
-/

namespace FpgaRouting

inductive Json
  | null
  | bool (b : Bool)
  | number (i : Int)
  | string (s : String)
  | array (items : List Json)
  | object (members : List (String × Json))
deriving Repr, Inhabited

namespace Json

/-- A natural number as a value. -/
def nat (n : Nat) : Json := number n

/-- A value that may be missing. -/
def option {α : Type} (encode : α → Json) : Option α → Json
  | some a => encode a
  | none => null

/-- The last member of a name. -/
def member? (name : String) (members : List (String × Json)) : Option Json :=
  (members.reverse.find? (·.1 = name)).map (·.2)

mutual

/-- The value with the members of every object sorted by name. -/
def sortKeys : Json → Json
  | array items => array (sortItems items)
  | object members =>
    object (Std.ExtTreeMap.ofList (sortMembers members) compare).toList
  | value => value

def sortItems : List Json → List Json
  | [] => []
  | item :: items => sortKeys item :: sortItems items

def sortMembers : List (String × Json) → List (String × Json)
  | [] => []
  | (name, value) :: members => (name, sortKeys value) :: sortMembers members

end

end Json

end FpgaRouting
