import FpgaRouting.Json.Document
import FpgaRouting.Records.Yaml

/-!
# Records/File — files of records and of results

A file holds a text, as it is or gzip-compressed, and whoever opens it says which of the two to
expect: **a file that is stored the other way is no architecture**.  JSON needs no reader of its
own here, since a JSON text is a YAML document.
-/

namespace FpgaRouting

structure StoredFile where
  compressed : Bool
  text : String
deriving DecidableEq, Repr

/-- Why a file gives no architecture. -/
inductive FileError
  | missing
  | malformed
deriving DecidableEq, Repr

def FileError.message : FileError → String
  | missing => "can't open file"
  | malformed => "malformed architecture records"

namespace Architecture

def ofText (text : String) : Except FileError Architecture :=
  match ofYaml? text with
  | some a => .ok a
  | none => .error .malformed

/-- The architecture in a file that is expected to be compressed or not. -/
def ofFile (compressed : Bool) : Option StoredFile → Except FileError Architecture
  | none => .error .missing
  | some file => if file.compressed = compressed then ofText file.text else .error .malformed

end Architecture

/-- The file that a document is written to at a path. -/
def Document.file (d : Document) (path : String) : StoredFile :=
  ⟨Document.isCompressed path, d.text⟩

end FpgaRouting
