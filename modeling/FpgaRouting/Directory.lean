import Std.Data.ExtTreeMap
import FpgaRouting.Records.File

/-!
# Directory — a flat directory of files

The files that a command line reaches by a path, for runs that touch no disk.  The directory has no
directories in it and nothing above it, so that **a path leads to a file only if it is the file's
name**, up to leading `./`.  Names have at most 255 bytes, paths at most 4095.
-/

namespace FpgaRouting

structure Directory where
  files : Std.ExtTreeMap String StoredFile compare

namespace Directory

def empty : Directory := ⟨∅⟩

/-- The steps of a path, cut at slashes. -/
def steps : List Char → List (List Char)
  | [] => [[]]
  | '/' :: cs => [] :: steps cs
  | c :: cs =>
    match steps cs with
    | [] => [[c]]
    | step :: rest => (c :: step) :: rest

/-- Whether a file can have this name. -/
def isName (name : String) : Bool :=
  name ≠ "" && name ≠ "." && name ≠ ".." && name.utf8ByteSize ≤ 255
    && !name.toList.contains '\x00'

/-- The file name that a path leads to.  An absolute path leads out of the directory, one of too
many bytes nowhere. -/
def name? (path : String) : Option String :=
  if 4095 < path.utf8ByteSize then none
  else
    match steps path.toList with
    | [] :: _ => none
    | first :: rest =>
      match (first :: rest).dropWhile fun step => step = [] || step = ['.'] with
      | [last] => some (String.ofList last) |>.filter isName
      | _ => none
    | [] => none

/-- The file at a path. -/
def find? (d : Directory) (path : String) : Option StoredFile := do
  d.files.get? (← name? path)

/-- The directory with a file written, over any file before it. -/
def write? (d : Directory) (path : String) (file : StoredFile) : Option Directory := do
  return ⟨d.files.insert (← name? path) file⟩

end Directory

end FpgaRouting
