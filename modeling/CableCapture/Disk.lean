import CableCapture.Folder

/-!
# Disks

A disk gives the text of files and the contents of folders, and takes new files. Reading and writing
happen in a monad, so that one program runs on a real disk and on a tree of files that is a value.
-/

namespace CableCapture

/-- What a program may ask of a disk; nothing means that it could not be done. -/
structure Disk (m : Type → Type) where
  readText : String → m (Option String)
  readFolder : String → m (Option Folder)
  writeText : String → String → m (Option Unit)

/-- Files and folders by the names on the way to them. The root is a folder. -/
structure FileTree where
  files : List (List String × List UInt8)
  folders : List (List String)
deriving DecidableEq, Repr

namespace FileTree

-- ---------------------------------------------------------------------------
-- Paths
-- ---------------------------------------------------------------------------

def isFolder (tree : FileTree) (place : List String) : Bool :=
  place = [] || tree.folders.contains place

/-- Where the pieces of a path lead. Only a folder has a way on, also to itself by an empty piece or
a dot; two dots lead back, but not out of the tree. -/
def follow (tree : FileTree) (place : List String) : List (List Char) → Option (List String)
  | [] => some place
  | piece :: pieces =>
    if !tree.isFolder place then none
    else
      match piece with
      | [] | ['.'] => tree.follow place pieces
      | ['.', '.'] => if place = [] then none else tree.follow place.dropLast pieces
      | name => tree.follow (place ++ [String.ofList name]) pieces

/-- Where a path leads. The empty path, paths from the root of a file system and paths with a null
character lead nowhere. -/
def place? (tree : FileTree) (path : String) : Option (List String) :=
  match path.toList with
  | [] => none
  | '/' :: _ => none
  | cs => if cs.contains '\x00' then none else tree.follow [] (Path.split cs)

-- ---------------------------------------------------------------------------
-- Reading and writing
-- ---------------------------------------------------------------------------

def file? (tree : FileTree) (path : String) : Option (List UInt8) := do
  tree.files.lookup (← tree.place? path)

/-- The last name of a place in a folder. -/
def nameIn? (folder place : List String) : Option String :=
  if place.dropLast = folder then place.getLast? else none

def folder? (tree : FileTree) (path : String) : Option Folder := do
  let place ← tree.place? path
  if tree.isFolder place then
    let files := tree.files.filterMap fun (other, bytes) =>
      (nameIn? place other).map fun name => (name, FolderEntry.file bytes)
    let folders := tree.folders.filterMap fun other =>
      (nameIn? place other).map fun name => (name, FolderEntry.folder)
    return files ++ folders
  else none

/-- The tree with a file at a path, whatever file was there. -/
def write? (tree : FileTree) (path : String) (bytes : List UInt8) : Option FileTree := do
  let place ← tree.place? path
  if tree.isFolder place then none
  else
    let others := tree.files.filter fun entry => entry.1 ≠ place
    return { tree with files := (place, bytes) :: others }

/-- The capture in the file at a path. -/
def load [Decompression] (tree : FileTree) (path : String) :
    Except LoadFault (String × List UInt8) :=
  match tree.file? path, Path.fileName? path with
  | some bytes, some name => loadFile name bytes
  | _, _ => .error .unreadable

/-- The captures in the folder at a path. -/
def loadFolder [Decompression] (tree : FileTree) (path : String) :
    Except LoadFault (List (String × List UInt8)) :=
  match tree.folder? path with
  | some folder => .ok folder.captures
  | none => .error .unreadable

/-- The tree as a disk. -/
def disk : Disk (StateM FileTree) where
  readText := fun path => do
    return ((← get).file? path).bind fun bytes => String.fromUTF8? ⟨bytes.toArray⟩
  readFolder := fun path => do return (← get).folder? path
  writeText := fun path text => do
    match (← get).write? path (Utf8.ofString text) with
    | some tree =>
      set tree
      return some ()
    | none => return none

end FileTree

end CableCapture
