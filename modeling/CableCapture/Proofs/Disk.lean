import CableCapture.Disk
import CableCapture.Libraries
import CableCapture.Proofs.Folder

/-!
# Files by their paths

In a tree whose places are all different and made of proper names, a folder has one entry for each
file and folder in it, and the path of the folder with one more name leads to that entry. So what the
folder gives for a file is what the file gives when it is loaded alone.
-/

namespace CableCapture

namespace FileTree

variable {tree : FileTree} {place : List String} {name : String}

/-! ## Places -/

/-- Everything that is in a tree. -/
def places (tree : FileTree) : List (List String) :=
  tree.files.map Prod.fst ++ tree.folders

/-- Nothing is in two places or under a name that could not be written. -/
structure WellFormed (tree : FileTree) : Prop where
  nodup : tree.places.Nodup
  names : ∀ place ∈ tree.places, ∀ name ∈ place, Path.IsName name

instance (tree : FileTree) : Decidable tree.WellFormed :=
  decidable_of_iff (tree.places.Nodup ∧ ∀ place ∈ tree.places, ∀ name ∈ place, Path.IsName name)
    ⟨fun ⟨hnodup, hnames⟩ => ⟨hnodup, hnames⟩, fun h => ⟨h.nodup, h.names⟩⟩

/-- Where one piece leads. -/
def next? (tree : FileTree) (place : List String) (piece : List Char) : Option (List String) :=
  if !tree.isFolder place then none
  else if piece ∈ [[], ['.']] then some place
  else if piece = ['.', '.'] then if place = [] then none else some place.dropLast
  else some (place ++ [String.ofList piece])

theorem follow_cons (piece : List Char) (pieces : List (List Char)) :
    tree.follow place (piece :: pieces) =
      (tree.next? place piece).bind fun reached => tree.follow reached pieces := by
  unfold next?
  conv_lhs => unfold follow
  split
  · rfl
  · split
    · rfl
    · rfl
    · split <;> rfl
    · rename_i hempty hdot hdots
      rw [if_neg (by simpa using ⟨hempty, hdot⟩), if_neg hdots]
      rfl

theorem follow_append (pieces others : List (List Char)) :
    tree.follow place (pieces ++ others) =
      (tree.follow place pieces).bind fun reached => tree.follow reached others := by
  induction pieces generalizing place with
  | nil => rfl
  | cons piece rest ih =>
    rw [List.cons_append, follow_cons, follow_cons, Option.bind_assoc]
    exact congrArg _ (funext fun _ => ih)

theorem follow_name (h : Path.IsName name) :
    tree.follow place [name.toList] =
      if tree.isFolder place then some (place ++ [name]) else none := by
  have hself : name.toList ∉ [[], ['.']] := fun hmem =>
    h.toList_ne (List.mem_append_left [['.', '.']] hmem) rfl
  have hparent : name.toList ≠ ['.', '.'] := h.toList_ne (by decide)
  rw [follow_cons, next?, if_neg hself, if_neg hparent, String.ofList_toList]
  cases tree.isFolder place <;> rfl

theorem place?_eq_some {path : String} :
    tree.place? path = some place ↔
      path.toList.head?.any (· ≠ '/') ∧ '\x00' ∉ path.toList ∧
        tree.follow [] (Path.split path.toList) = some place := by
  unfold place?
  split
  · rename_i hempty
    simp [hempty]
  · rename_i rest hroot
    simp [hroot]
  · rename_i hempty hroot
    obtain ⟨c, rest, hpath⟩ := List.exists_cons_of_ne_nil hempty
    have hc : c ≠ '/' := by
      rintro rfl
      exact hroot rest hpath
    have hhead : path.toList.head?.any (· ≠ '/') := by simp [hpath, hc]
    rw [and_iff_right hhead]
    by_cases hnull : '\x00' ∈ path.toList
    · simp [hnull]
    · simp [hnull]

/-- The path of a folder with one more name leads into the folder. -/
theorem place?_append {path : String} (hplace : tree.place? path = some place)
    (hfolder : tree.isFolder place) (h : Path.IsName name) :
    tree.place? (path ++ "/" ++ name) = some (place ++ [name]) := by
  obtain ⟨hhead, hnull, hfollow⟩ := place?_eq_some.1 hplace
  have hpath : (path ++ "/" ++ name).toList = path.toList ++ '/' :: name.toList := by
    rw [String.toList_append, String.toList_append, List.append_assoc]
    rfl
  rw [place?_eq_some, hpath, Path.split_append, Path.split_of_no_slash h.no_slash, follow_append,
    hfollow, Option.bind_some, follow_name h, if_pos hfolder]
  refine ⟨?_, ?_, rfl⟩
  · cases hcs : path.toList with
    | nil => simp [hcs] at hhead
    | cons c rest => simpa [hcs] using hhead
  · simpa [hnull] using h.no_null

/-! ## Folders -/

theorem nameIn?_eq_some {other : List String} :
    nameIn? place other = some name ↔ other = place ++ [name] := by
  unfold nameIn?
  constructor
  · intro h
    split at h
    · rename_i hplace
      rw [← hplace]
      exact (List.dropLast_append_getLast? name h).symm
    · cases h
  · rintro rfl
    rw [if_pos (List.dropLast_concat), List.getLast?_concat]

theorem folder?_eq_some {path : String} {folder : Folder} (h : tree.folder? path = some folder) :
    ∃ place, tree.place? path = some place ∧ tree.isFolder place ∧
      folder =
        (tree.files.filterMap fun (other, bytes) =>
          (nameIn? place other).map fun name => (name, FolderEntry.file bytes)) ++
        tree.folders.filterMap fun other =>
          (nameIn? place other).map fun name => (name, FolderEntry.folder) := by
  obtain ⟨place, hplace, h⟩ := Option.bind_eq_some_iff.1 h
  split at h
  · rename_i hfolder
    exact ⟨place, hplace, hfolder, (Option.some.inj h).symm⟩
  · cases h

variable {path : String} {folder : Folder} {bytes capture : List UInt8}

theorem mem_folder {place : List String} (hplace : tree.place? path = some place)
    (h : tree.folder? path = some folder) :
    (name, .file bytes) ∈ folder ↔ (place ++ [name], bytes) ∈ tree.files := by
  obtain ⟨found, hfound, -, rfl⟩ := folder?_eq_some h
  obtain rfl := Option.some.inj (hplace.symm.trans hfound)
  simp [List.mem_filterMap, nameIn?_eq_some]

/-- The names of a folder are the last names of the places in it. -/
theorem names_folder (h : tree.folder? path = some folder) :
    ∃ place, folder.map Prod.fst = tree.places.filterMap (nameIn? place) := by
  obtain ⟨place, -, -, rfl⟩ := folder?_eq_some h
  have hfiles : (tree.files.filterMap fun (other, bytes) =>
      (nameIn? place other).map fun name => (name, FolderEntry.file bytes)).map Prod.fst =
        (tree.files.map Prod.fst).filterMap (nameIn? place) := by
    simp [List.map_filterMap, List.filterMap_map, Function.comp_def]
  have hfolders : (tree.folders.filterMap fun other =>
      (nameIn? place other).map fun name => (name, FolderEntry.folder)).map Prod.fst =
        tree.folders.filterMap (nameIn? place) := by
    simp [List.map_filterMap, Function.comp_def]
  refine ⟨place, ?_⟩
  rw [List.map_append, hfiles, hfolders, ← List.filterMap_append]
  rfl

/-- A folder of a well-formed tree is well-formed. -/
theorem WellFormed.wellFormed_folder (hwf : tree.WellFormed) (h : tree.folder? path = some folder) :
    folder.WellFormed := by
  obtain ⟨place, hnames⟩ := names_folder h
  constructor
  · rw [hnames]
    refine hwf.nodup.filterMap fun a b name ha hb => ?_
    rw [nameIn?_eq_some.1 ha, nameIn?_eq_some.1 hb]
  · intro entry hentry
    have hname : entry.1 ∈ tree.places.filterMap (nameIn? place) := by
      rw [← hnames]
      exact List.mem_map_of_mem hentry
    obtain ⟨other, hother, hlast⟩ := List.mem_filterMap.1 hname
    rw [nameIn?_eq_some.1 hlast] at hother
    exact hwf.names _ hother _ (List.mem_append_right place (List.mem_singleton_self _))

/-! ## Files -/

theorem WellFormed.lookup_eq_some (hwf : tree.WellFormed) :
    tree.files.lookup place = some bytes ↔ (place, bytes) ∈ tree.files := by
  have hnodup : (tree.files.map Prod.fst).Nodup := (List.nodup_append.1 hwf.nodup).1
  generalize tree.files = files at hnodup
  induction files with
  | nil => simp
  | cons file rest ih =>
    obtain ⟨other, content⟩ := file
    rw [List.map_cons, List.nodup_cons] at hnodup
    rw [List.lookup_cons]
    by_cases hother : place = other
    · subst hother
      have hnew : (place, bytes) ∉ rest := fun hmem => hnodup.1 (List.mem_map.2 ⟨_, hmem, rfl⟩)
      simp [hnew, eq_comm]
    · simp [beq_false_of_ne hother, hother, ih hnodup.2]

/-- A file gives the same alone as with the rest of its folder. -/
theorem WellFormed.load_eq_ok [Decompression] (hwf : tree.WellFormed)
    (h : tree.folder? path = some folder) (hname : Path.IsName name) :
    tree.load (path ++ "/" ++ name) = .ok (name, capture) ↔ (name, capture) ∈ folder.captures := by
  obtain ⟨place, hplace, hfolder, -⟩ := folder?_eq_some h
  have hfile : tree.file? (path ++ "/" ++ name) = tree.files.lookup (place ++ [name]) := by
    unfold file?
    rw [place?_append hplace hfolder hname]
    rfl
  -- A path reads the first file of its place. There is only one, and it is the entry of the folder.
  have hmem : ∀ bytes, tree.files.lookup (place ++ [name]) = some bytes ↔
      (name, .file bytes) ∈ folder := fun bytes => by
    rw [hwf.lookup_eq_some, mem_folder hplace h]
  rw [Folder.mem_captures]
  unfold load
  rw [hfile, hname.fileName?_append]
  cases hlookup : tree.files.lookup (place ++ [name]) with
  | none =>
    simp only [reduceCtorEq, false_iff, not_exists, not_and]
    intro bytes hentry
    rw [(hmem bytes).2 hentry] at hlookup
    cases hlookup
  | some bytes =>
    simp only [loadFile_eq_ok, true_and]
    constructor
    · intro hcapture
      exact ⟨bytes, (hmem bytes).1 hlookup, hcapture⟩
    · rintro ⟨others, hentry, hcapture⟩
      rw [(hmem others).2 hentry] at hlookup
      rwa [← Option.some.inj hlookup]

end FileTree

/-! ## Main result -/

/-- A folder gives what its files give, each under the codec that the end of its name tells, in a
strict order of names, whatever the libraries make of the files. The order in which the folder is
listed makes no difference, and neither do folders in it. Whatever becomes of some names, the captures
under the other ones and their order stay. All folders of a tree are such folders, and each file of
them gives the same by its path alone. -/
theorem Folder.captures_of_files [Decompression] :
    (∀ folder : Folder, folder.WellFormed →
      (∀ name capture, (name, capture) ∈ folder.captures ↔
        ∃ (bytes : List UInt8) (codec : Codec), (name, .file bytes) ∈ folder ∧ codec.ToldBy name ∧
          codec.decompress bytes = some capture) ∧
      Ascending folder.captures ∧
      (∀ listing : Folder, listing.Perm folder → listing.captures = folder.captures) ∧
      (∀ other : Folder, other.WellFormed →
        (∀ name bytes, (name, .file bytes) ∈ other ↔ (name, .file bytes) ∈ folder) →
        other.captures = folder.captures) ∧
      ∀ (other : Folder) (kept : String → Bool), other.WellFormed →
        (∀ name bytes, kept name →
          ((name, .file bytes) ∈ other ↔ (name, .file bytes) ∈ folder)) →
        other.captures.filter (fun capture => kept capture.1) =
          folder.captures.filter fun capture => kept capture.1) ∧
    ∀ (tree : FileTree) (path : String) (folder : Folder), tree.WellFormed →
      tree.folder? path = some folder →
      folder.WellFormed ∧ tree.loadFolder path = .ok folder.captures ∧
      (∀ capture ∈ folder.captures, tree.load (path ++ "/" ++ capture.1) = .ok capture) ∧
      ∀ name capture, Path.IsName name →
        tree.load (path ++ "/" ++ name) = .ok (name, capture) →
        (name, capture) ∈ folder.captures := by
  constructor
  · intro folder h
    refine ⟨fun _ _ => h.mem_captures_iff, h.ascending_captures, ?_, fun _ => captures_eq h,
      fun _ kept hother => filter_captures h hother kept⟩
    intro listing hlisting
    have hwf : listing.WellFormed := {
      nodup := (hlisting.map Prod.fst).nodup_iff.2 h.nodup
      names := fun entry hentry => h.names entry (hlisting.mem_iff.1 hentry) }
    exact captures_eq h hwf fun _ _ => hlisting.mem_iff
  · intro tree path folder hwf hfolder
    have h := hwf.wellFormed_folder hfolder
    refine ⟨h, ?_, ?_, ?_⟩
    · unfold FileTree.loadFolder
      rw [hfolder]
    · rintro ⟨name, capture⟩ hcapture
      obtain ⟨bytes, hentry, -⟩ := mem_captures.1 hcapture
      exact (hwf.load_eq_ok hfolder (h.names _ hentry)).2 hcapture
    · intro name capture hname hload
      exact (hwf.load_eq_ok hfolder hname).1 hload

/-- A folder with a capture, a compressed one whose name says so in capitals, a file that is not what
its name tells, and a folder. -/
def mixedFolder : Folder :=
  [("b.bin", .file [0x50, 0x4E, 0x4E]), ("bad.gz", .file [0x6E, 0x6F]),
    ("a.ZST", .file [0x28, 0xB5, 0x2F, 0xFD, 0x20, 12, 0x63, 0, 0, 7]), ("sub", .folder)]

/-- The same in another order, without the folder and with the wrong file replaced. -/
def mendedFolder : Folder :=
  [("a.ZST", .file [0x28, 0xB5, 0x2F, 0xFD, 0x20, 12, 0x63, 0, 0, 7]),
    ("b.bin", .file [0x50, 0x4E, 0x4E]), ("bad.gz", .folder)]

def mixedTree : FileTree where
  files := [(["captures", "b.bin"], [0x50, 0x4E, 0x4E]), (["captures", "bad.gz"], [0x6E, 0x6F]),
    (["captures", "a.ZST"], [0x28, 0xB5, 0x2F, 0xFD, 0x20, 12, 0x63, 0, 0, 7]),
    (["captures", "sub", "c.bin"], [1])]
  folders := [["captures"], ["captures", "sub"]]

theorem mixed_folder_captures :
    mixedFolder.WellFormed ∧
      ("b.bin", [0x50, 0x4E, 0x4E]) ∈ mixedFolder.captures ∧
      ("a.ZST", List.replicate 12 7) ∈ mixedFolder.captures ∧
      (∀ capture, ("bad.gz", capture) ∉ mixedFolder.captures) ∧
      mendedFolder.captures.filter (fun capture => capture.1 ≠ "bad.gz") =
        mixedFolder.captures.filter (fun capture => capture.1 ≠ "bad.gz") ∧
      mixedTree.loadFolder "captures" = .ok mixedFolder.captures ∧
      mixedTree.load "captures/a.ZST" = .ok ("a.ZST", List.replicate 12 7) := by
  have hwf : mixedFolder.WellFormed := by decide +kernel
  obtain ⟨hmem, -, -, -, hkept⟩ := Folder.captures_of_files.1 mixedFolder hwf
  have hplain : ("b.bin", [0x50, 0x4E, 0x4E]) ∈ mixedFolder.captures :=
    (hmem _ _).2 ⟨_, .plain, List.mem_cons_self, (Codec.toldBy_iff (by decide)).2 (by decide +kernel),
      rfl⟩
  have hzstd : ("a.ZST", List.replicate 12 7) ∈ mixedFolder.captures :=
    (hmem _ _).2 ⟨_, .zstd, List.mem_of_getElem? (i := 2) rfl,
      .suffix rfl ⟨['a'], ['Z', 'S', 'T'], by decide, by decide, by decide⟩, by decide +kernel⟩
  have hbad : ∀ capture, ("bad.gz", capture) ∉ mixedFolder.captures := by
    intro capture hcapture
    obtain ⟨bytes, codec, hentry, htold, hdecompress⟩ := (hmem _ _).1 hcapture
    obtain rfl : bytes = [0x6E, 0x6F] := by simpa [mixedFolder] using hentry
    obtain rfl : .gzip = codec :=
      ((Codec.ofPath_eq_iff (by decide) rfl).2 ⟨['b', 'a', 'd'], ['g', 'z'], by decide, by decide,
        by decide⟩).symm.trans ((Codec.toldBy_iff (by decide)).1 htold)
    have hnothing : Codec.gzip.decompress [0x6E, 0x6F] = none := by decide +kernel
    rw [hnothing] at hdecompress
    cases hdecompress
  obtain ⟨-, hload, hcaptures, -⟩ :=
    Folder.captures_of_files.2 mixedTree "captures" mixedFolder (by decide +kernel)
      (by decide +kernel)
  refine ⟨hwf, hplain, hzstd, hbad, ?_, hload, hcaptures _ hzstd⟩
  refine hkept mendedFolder (fun name => name ≠ "bad.gz") (by decide +kernel) ?_
  intro name bytes hname
  have hne : name ≠ "bad.gz" := of_decide_eq_true hname
  simp [mendedFolder, mixedFolder, hne, or_comm]

end CableCapture
