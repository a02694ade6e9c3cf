import CableCapture.Archive.Codec
import CableCapture.Text.Utf8

/-!
# Folders of capture files

Each file of a folder is decompressed as its name tells. A file that fails is left out and never costs
another one; the rest are listed in the order of the bytes of their names. Names are texts here: a name
that is not UTF-8, which a file system may have as well, is not one of them.
-/

namespace CableCapture

/-- Why a file or a folder gives no captures. -/
inductive LoadFault where
  | unreadable
  | decompression (codec : Codec)
deriving DecidableEq, Repr

def LoadFault.message : LoadFault → String
  | unreadable => "IO error"
  | decompression codec => "Decompression failed: " ++ codec.name

/-- What a name in a folder stands for. -/
inductive FolderEntry where
  | file (bytes : List UInt8)
  | folder
deriving DecidableEq, Repr

/-- The names of a folder in any order. -/
abbrev Folder := List (String × FolderEntry)

/-- The capture in a file, with the file's name. -/
def loadFile [Decompression] (name : String) (bytes : List UInt8) :
    Except LoadFault (String × List UInt8) :=
  let codec := Codec.ofPath name
  match codec.decompress bytes with
  | some capture => .ok (name, capture)
  | none => .error (.decompression codec)

namespace Folder

/-- The files of a folder. -/
def files (folder : Folder) : List (String × List UInt8) :=
  folder.filterMap fun (name, entry) =>
    match entry with
    | .file bytes => some (name, bytes)
    | .folder => none

/-- Names are compared byte by byte. -/
def nameLe (a b : String) : Bool :=
  Utf8.ofString a ≤ Utf8.ofString b

/-- The captures in the files of a folder. -/
def captures [Decompression] (folder : Folder) : List (String × List UInt8) :=
  let sorted := folder.files.mergeSort fun a b => nameLe a.1 b.1
  sorted.filterMap fun (name, bytes) => (loadFile name bytes).toOption

end Folder

end CableCapture
