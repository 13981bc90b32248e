import FpgaRouting.Json.Text

/-!
# Json/Document — a file of named JSON values

Named values are gathered and written as one object, in the order of their names; **a value added
under a name replaces the one before it**.  The file is gzip-compressed when its name says so.
-/

namespace FpgaRouting

/-- Named values, their own members sorted too. -/
structure Document where
  values : Std.ExtTreeMap String Json compare

namespace Document

def empty : Document := ⟨∅⟩

def add (d : Document) (name : String) (value : Json) : Document :=
  ⟨d.values.insert name value.sortKeys⟩

def toJson (d : Document) : Json := .object d.values.toList

def text (d : Document) : String := d.toJson.pretty

/-- Whether a file at this path is compressed: its name ends in `.gz` **after at least one other
character**. -/
def isCompressed (path : String) : Bool :=
  match path.toList.reverse with
  | 'z' :: 'g' :: '.' :: c :: _ => c ≠ '/'
  | _ => false

end Document

end FpgaRouting
