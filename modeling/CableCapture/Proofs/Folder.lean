import CableCapture.Folder
import CableCapture.Proofs.Answers
import CableCapture.Proofs.StableSort
import CableCapture.Proofs.Text.Paths
import CableCapture.Proofs.Text.Utf8
import Mathlib.Data.List.Nodup
import Mathlib.Data.List.Sort

/-!
# What a folder gives

The names of a folder are all different, so the captures are in one strict order of their names. Such
a list is known from its members, and these are what the files give, each by itself and under the codec
that the end of its name tells. So it makes no difference in which order a folder is listed, and what
becomes of one name is nothing to the others. All this holds whatever the libraries decompress files to.
-/

namespace CableCapture

/-! ## Codecs of names -/

namespace Codec

/-- The end of a name that stands for a codec. -/
def suffix? : Codec → Option String
  | plain => none
  | gzip => "gz"
  | zlib => "zlib"
  | lz4 => "lz4"
  | zstd => "zst"

end Codec

/-- The name ends in a dot and the suffix, in letters of any case. More stands before the dot. -/
def EndsIn (name suffix : String) : Prop :=
  ∃ stem letters : List Char, stem ≠ [] ∧ letters.map Char.toLower = suffix.toList ∧
    name.toList = stem ++ '.' :: letters

namespace Codec

/-- The codec that a name tells. -/
inductive ToldBy (name : String) : Codec → Prop
  | suffix {codec : Codec} {suffix : String} (hcodec : codec.suffix? = some suffix)
      (hname : EndsIn name suffix) : ToldBy name codec
  /-- A name that ends in no suffix of a codec tells that the file is not compressed. -/
  | plain (hname : ∀ (codec : Codec) (suffix : String), codec.suffix? = some suffix →
      ¬EndsIn name suffix) : ToldBy name plain

theorem ofSuffix_eq_iff {codec : Codec} {suffix letters : String}
    (hcodec : codec.suffix? = some suffix) :
    ofSuffix letters = codec ↔ letters.toList.map Char.toLower = suffix.toList := by
  have hlower : letters.toList.map Char.toLower = suffix.toList ↔
      String.ofList (letters.toList.map Char.toLower) = suffix := by
    rw [← String.toList_inj, String.toList_ofList]
  rw [hlower]
  unfold ofSuffix
  generalize String.ofList (letters.toList.map Char.toLower) = lower
  cases codec with
  | plain => cases hcodec
  | _ =>
    obtain rfl := Option.some.inj hcodec
    split <;> simp_all

variable {name : String}

theorem dot_notMem_of_lower {codec : Codec} {suffix : String} {letters : List Char}
    (hcodec : codec.suffix? = some suffix) (h : letters.map Char.toLower = suffix.toList) :
    '.' ∉ letters := by
  intro hdot
  have hmem : '.' ∈ suffix.toList := by
    rw [← h]
    exact List.mem_map.2 ⟨'.', hdot, by decide⟩
  revert hmem
  cases codec with
  | plain => cases hcodec
  | _ =>
    obtain rfl := Option.some.inj hcodec
    decide

theorem ofPath_eq_iff (h : Path.IsName name) {codec : Codec} {suffix : String}
    (hcodec : codec.suffix? = some suffix) : ofPath name = codec ↔ EndsIn name suffix := by
  unfold ofPath
  rw [h.fileName?_eq, Option.bind_some]
  constructor
  · intro hpath
    split at hpath
    · rename_i letters hletters
      obtain ⟨-, stem, hstem, hname⟩ := Path.suffix?_eq_some.1 hletters
      exact ⟨stem, letters.toList, hstem, (ofSuffix_eq_iff hcodec).1 hpath, hname⟩
    · rw [← hpath] at hcodec
      cases hcodec
  · rintro ⟨stem, letters, hstem, hlower, hname⟩
    have hsuffix : Path.suffix? name = some (.ofList letters) := by
      rw [Path.suffix?_eq_some, String.toList_ofList]
      exact ⟨dot_notMem_of_lower hcodec hlower, stem, hstem, hname⟩
    rw [hsuffix]
    exact (ofSuffix_eq_iff hcodec).2 (by rwa [String.toList_ofList])

theorem suffix?_eq_none {codec : Codec} : codec.suffix? = none ↔ codec = plain := by
  cases codec <;> simp [suffix?]

/-- Every name tells one codec, and it is the one that is used. -/
theorem toldBy_iff (h : Path.IsName name) {codec : Codec} :
    ToldBy name codec ↔ ofPath name = codec := by
  constructor
  · rintro (⟨hcodec, hname⟩ | hname)
    · exact (ofPath_eq_iff h hcodec).2 hname
    · rw [← suffix?_eq_none, Option.eq_none_iff_forall_ne_some]
      exact fun suffix hsuffix => hname _ _ hsuffix ((ofPath_eq_iff h hsuffix).1 rfl)
  · rintro rfl
    cases hsuffix : (ofPath name).suffix? with
    | some suffix => exact .suffix hsuffix ((ofPath_eq_iff h hsuffix).1 rfl)
    | none =>
      rw [suffix?_eq_none.1 hsuffix]
      refine .plain fun codec suffix hcodec hname => ?_
      rw [← (ofPath_eq_iff h hcodec).2 hname, hsuffix] at hcodec
      cases hcodec

end Codec

namespace Utf8

theorem ofString_injective : Function.Injective ofString := by
  intro s t h
  rw [← ofList_decode_ofString s, h, ofList_decode_ofString]

end Utf8

section Loading

variable [Decompression]

theorem loadFile_eq_ok {name : String} {bytes : List UInt8} {found : String × List UInt8} :
    loadFile name bytes = .ok found ↔
      found.1 = name ∧ (Codec.ofPath name).decompress bytes = some found.2 := by
  obtain ⟨foundName, foundCapture⟩ := found
  simp only [loadFile]
  cases (Codec.ofPath name).decompress bytes with
  | none => simp
  | some capture =>
    simp only [Except.ok.injEq, Prod.mk.injEq, Option.some.injEq]
    exact and_congr_left fun _ => eq_comm

end Loading

namespace Folder

/-! ## Names of a folder -/

/-- No two entries have one name, and each of them has a name. -/
structure WellFormed (folder : Folder) : Prop where
  nodup : (folder.map Prod.fst).Nodup
  names : ∀ entry ∈ folder, Path.IsName entry.1

instance (folder : Folder) : Decidable folder.WellFormed :=
  decidable_of_iff ((folder.map Prod.fst).Nodup ∧ ∀ entry ∈ folder, Path.IsName entry.1)
    ⟨fun ⟨hnodup, hnames⟩ => ⟨hnodup, hnames⟩, fun h => ⟨h.nodup, h.names⟩⟩

/-- The names ascend by their bytes, without repetition. -/
def Ascending (captures : List (String × List UInt8)) : Prop :=
  captures.Pairwise fun a b => Utf8.ofString a.1 < Utf8.ofString b.1

theorem Ascending.eq_of_mem_iff {captures others : List (String × List UInt8)}
    (h : Ascending captures) (hothers : Ascending others)
    (hmem : ∀ capture, capture ∈ captures ↔ capture ∈ others) : captures = others := by
  have hasymm : Std.Antisymm fun a b : String × List UInt8 =>
      Utf8.ofString a.1 < Utf8.ofString b.1 :=
    ⟨fun _ _ hlt hgt => absurd hlt (List.lt_asymm hgt)⟩
  have hirrefl : Std.Irrefl fun a b : String × List UInt8 =>
      Utf8.ofString a.1 < Utf8.ofString b.1 :=
    ⟨fun _ => List.lt_irrefl _⟩
  exact List.Pairwise.eq_of_mem_iff h hothers hmem

/-! ## Captures -/

variable {folder other : Folder} {name : String} {bytes capture : List UInt8}

theorem mem_files : (name, bytes) ∈ folder.files ↔ (name, .file bytes) ∈ folder := by
  unfold files
  rw [List.mem_filterMap]
  constructor
  · rintro ⟨⟨other, entry⟩, hentry, hfile⟩
    cases entry with
    | file content =>
      obtain ⟨rfl, rfl⟩ := Prod.mk.inj (Option.some.inj hfile)
      exact hentry
    | folder => cases hfile
  · intro hentry
    exact ⟨_, hentry, rfl⟩

theorem WellFormed.nodup_files (h : folder.WellFormed) : (folder.files.map Prod.fst).Nodup := by
  have hsublist : (folder.files.map Prod.fst).Sublist (folder.map Prod.fst) := by
    clear h
    induction folder with
    | nil => exact .slnil
    | cons entry rest ih =>
      obtain ⟨name, entry⟩ := entry
      cases entry with
      | file bytes => exact ih.cons_cons name
      | folder => exact ih.cons name
  exact h.nodup.sublist hsublist

section Captures

variable [Decompression]

/-- A file gives what it gives by itself, whatever else is in the folder. -/
theorem mem_captures :
    (name, capture) ∈ folder.captures ↔
      ∃ bytes, (name, .file bytes) ∈ folder ∧
        (Codec.ofPath name).decompress bytes = some capture := by
  unfold captures
  simp only [List.mem_filterMap, (List.mergeSort_perm _ _).mem_iff, toOption_eq_some,
    loadFile_eq_ok]
  constructor
  · rintro ⟨⟨other, bytes⟩, hfile, rfl, hcapture⟩
    exact ⟨bytes, mem_files.1 hfile, hcapture⟩
  · rintro ⟨bytes, hentry, hcapture⟩
    exact ⟨(name, bytes), mem_files.2 hentry, rfl, hcapture⟩

/-- A file gives what the codec that its name tells makes of it. -/
theorem WellFormed.mem_captures_iff (h : folder.WellFormed) :
    (name, capture) ∈ folder.captures ↔
      ∃ (bytes : List UInt8) (codec : Codec), (name, .file bytes) ∈ folder ∧ codec.ToldBy name ∧
        codec.decompress bytes = some capture := by
  rw [mem_captures]
  constructor
  · rintro ⟨bytes, hentry, hcapture⟩
    exact ⟨bytes, _, hentry, (Codec.toldBy_iff (h.names _ hentry)).2 rfl, hcapture⟩
  · rintro ⟨bytes, codec, hentry, htold, hcapture⟩
    rw [← (Codec.toldBy_iff (h.names _ hentry)).1 htold] at hcapture
    exact ⟨bytes, hentry, hcapture⟩

theorem WellFormed.ascending_captures (h : folder.WellFormed) : Ascending folder.captures := by
  have hsorted := pairwise_mergeSort_key (fun file : String × List UInt8 => Utf8.ofString file.1)
    folder.files
  have hnodup : (folder.files.mergeSort fun a b => nameLe a.1 b.1).Pairwise
      fun a b => a.1 ≠ b.1 :=
    List.pairwise_map.1 (((List.mergeSort_perm _ _).map Prod.fst).nodup_iff.2 h.nodup_files)
  refine List.pairwise_filterMap.2 ((hsorted.and hnodup).imp ?_)
  rintro a b ⟨hle, hne⟩ found hfound next hnext
  obtain ⟨hname, -⟩ := loadFile_eq_ok.1 (toOption_eq_some.1 hfound)
  obtain ⟨hnextName, -⟩ := loadFile_eq_ok.1 (toOption_eq_some.1 hnext)
  rw [hname, hnextName]
  refine (List.le_iff_lt_or_eq.1 hle).resolve_right fun heq => ?_
  exact hne (Utf8.ofString_injective heq)

/-- Folders with the same files under the kept names give the same captures for these. -/
theorem filter_captures (h : folder.WellFormed) (hother : other.WellFormed) (kept : String → Bool)
    (hkept : ∀ name bytes, kept name →
      ((name, .file bytes) ∈ other ↔ (name, .file bytes) ∈ folder)) :
    other.captures.filter (fun capture => kept capture.1) =
      folder.captures.filter fun capture => kept capture.1 := by
  refine Ascending.eq_of_mem_iff (hother.ascending_captures.filter _)
    (h.ascending_captures.filter _) ?_
  rintro ⟨name, capture⟩
  rw [List.mem_filter, List.mem_filter, mem_captures, mem_captures]
  refine and_congr_left fun hname => exists_congr fun bytes => ?_
  rw [hkept name bytes hname]

theorem captures_eq (h : folder.WellFormed) (hother : other.WellFormed)
    (hfiles : ∀ name bytes, (name, .file bytes) ∈ other ↔ (name, .file bytes) ∈ folder) :
    other.captures = folder.captures := by
  have hall := filter_captures h hother (fun _ => true) fun name bytes _ => hfiles name bytes
  rwa [List.filter_true, List.filter_true] at hall

end Captures

end Folder

end CableCapture
