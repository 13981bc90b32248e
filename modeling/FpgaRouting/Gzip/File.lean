import FpgaRouting.Gzip.Member
import FpgaRouting.Records.File

/-!
# Gzip/File — stored files as bytes

A file that begins like a gzip member is taken for compressed.  No text begins that way, so that
**the bytes tell the two kinds of file apart**.
-/

namespace FpgaRouting.StoredFile

/-- The file with these bytes, if there is a text in it. -/
def ofBytes? (bytes : ByteArray) : Option StoredFile := do
  let file := bytes.toList
  if Gzip.isMember file then
    return ⟨true, ← String.fromUTF8? ⟨(← Gzip.unpack? file).toArray⟩⟩
  else
    return ⟨false, ← String.fromUTF8? bytes⟩

def toBytes (f : StoredFile) : ByteArray :=
  if f.compressed then ⟨(Gzip.pack f.text.toUTF8.toList).toArray⟩ else f.text.toUTF8

end FpgaRouting.StoredFile
