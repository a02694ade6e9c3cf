import CableCapture.Proofs.Capture.Header

/-!
# The code table

Which tags and versions have a kind: ten versions of one tag, in the order of the table, and two
spellings that keep a digit of the code in the tag. A tag of three bytes has no room for that digit,
so from bytes only the ten are read.
-/

namespace CableCapture

namespace CaptureKind

variable {kind : CaptureKind}

/-! ## The table in order -/

theorem eq_rank_of_getElem?_all {n : Nat} (h : all[n]? = some kind) : n = kind.rank := by
  have hdistinct : all.Nodup := by decide
  have hn := (List.getElem?_eq_some_iff.1 h).1
  exact (List.getElem?_inj hn hdistinct).1 (h.trans (getElem?_all_rank kind).symm)

theorem toNat_versionOf (hlatency : kind ≠ .latencyReport) :
    (Capture.versionOf kind).toNat = kind.rank + 1 := by
  cases kind with
  | latencyReport => exact absurd rfl hlatency
  | _ => rfl

/-- The first ten kinds stand in the table in the order of their versions. -/
theorem getElem?_all_version {n : Nat} :
    (1 ≤ n ∧ n ≤ 10 ∧ all[n - 1]? = some kind) ↔
      n = (Capture.versionOf kind).toNat ∧ kind ≠ .latencyReport := by
  have hlast : rank .latencyReport = 10 := rfl
  constructor
  · rintro ⟨hlow, hhigh, hkind⟩
    have hrank := eq_rank_of_getElem?_all hkind
    have hlatency : kind ≠ .latencyReport := by
      rintro rfl
      omega
    rw [toNat_versionOf hlatency]
    exact ⟨by omega, hlatency⟩
  · rintro ⟨rfl, hlatency⟩
    have hlen := (List.getElem?_eq_some_iff.1 (getElem?_all_rank kind)).1
    have heleven : all.length = 11 := rfl
    have hrank : kind.rank ≠ 10 := fun h => hlatency (rank_injective (h.trans hlast.symm))
    rw [toNat_versionOf hlatency]
    exact ⟨by omega, by omega, getElem?_all_rank kind⟩

end CaptureKind

/-! ## Headers that were read -/

namespace Header

variable {bytes : List UInt8} {h : Header} {kind : CaptureKind}

theorem getElem?_three_of_parse (hparse : parse bytes = .ok h) : bytes[3]? = some h.version := by
  obtain ⟨tag, hlen, -, -, -, rfl⟩ := parse_eq_ok.1 hparse
  rw [List.getElem?_append_right hlen.le, hlen]
  rfl

theorem tag_of_parse (hparse : parse bytes = .ok h) :
    h.tag = "PNN" ↔ bytes.take 3 = [0x50, 0x4E, 0x4E] := by
  obtain ⟨tag, hlen, htag, -, -, rfl⟩ := parse_eq_ok.1 hparse
  rw [List.take_left' hlen]
  constructor
  · intro hplain
    exact CaptureKind.tag_bytes_of_decode (htag.symm.trans hplain) hlen
  · rintro rfl
    rw [htag]
    decide +kernel

/-- The kinds of the headers that are read from bytes. -/
theorem kind?_of_parse (hparse : parse bytes = .ok h) :
    h.kind? = some kind ↔
      h.tag = "PNN" ∧ h.version = Capture.versionOf kind ∧ kind ≠ .latencyReport := by
  constructor
  · intro hkind
    exact CaptureKind.tag_of_resolve? hkind (length_tag_of_parse hparse)
  · rintro ⟨htag, hversion, hlatency⟩
    have hplain : trimEnd CaptureKind.isPadding "PNN".toList = "PNN".toList := by decide
    refine CaptureKind.resolve?_eq_some.2 (CaptureKind.spelling_iff.2 (.inl ?_))
    rw [htag, hversion]
    exact ⟨hplain, rfl, hlatency⟩

theorem kind?_isSome_of_parse (hparse : parse bytes = .ok h) :
    h.kind?.isSome ↔ h.tag = "PNN" ∧ 1 ≤ h.version.toNat ∧ h.version.toNat ≤ 10 := by
  rw [Option.isSome_iff_exists]
  constructor
  · rintro ⟨kind, hkind⟩
    obtain ⟨htag, hversion, hlatency⟩ := (kind?_of_parse hparse).1 hkind
    obtain ⟨hlow, hhigh, -⟩ :=
      CaptureKind.getElem?_all_version.2 ⟨congrArg UInt8.toNat hversion, hlatency⟩
    exact ⟨htag, hlow, hhigh⟩
  · rintro ⟨htag, hlow, hhigh⟩
    have hplace : h.version.toNat - 1 < CaptureKind.all.length := by
      have heleven : CaptureKind.all.length = 11 := rfl
      omega
    obtain ⟨hversion, hlatency⟩ :=
      CaptureKind.getElem?_all_version.1 ⟨hlow, hhigh, List.getElem?_eq_getElem hplace⟩
    exact ⟨_, (kind?_of_parse hparse).2 ⟨htag, UInt8.toNat_inj.1 hversion, hlatency⟩⟩

/-- Summaries of errors are the captures without a capture time. -/
theorem kind?_eq_fecSummary_of_parse (hparse : parse bytes = .ok h) :
    h.kind? = some .fecSummary ↔ h.kind?.isSome ∧ h.layout = .compact := by
  obtain ⟨-, -, -, hlayout, -⟩ := parse_eq_ok.1 hparse
  rw [hlayout]
  constructor
  · intro hkind
    obtain ⟨-, hversion, -⟩ := (kind?_of_parse hparse).1 hkind
    rw [hkind, hversion]
    exact ⟨rfl, rfl⟩
  · rintro ⟨hsome, hcompact⟩
    obtain ⟨kind, hkind⟩ := Option.isSome_iff_exists.1 hsome
    obtain ⟨-, hversion, -⟩ := (kind?_of_parse hparse).1 hkind
    rw [hversion] at hcompact
    rw [hkind]
    cases kind with
    | fecSummary => rfl
    | _ => exact absurd hcompact (by decide)

/-! ## The whole table -/

/-- The twelve pairs of a stripped tag and a version that have a kind. In bytes, the tag of a known
kind is spelled out and the version is from 1 to 10, whatever the damage elsewhere; no file is a
latency report, and the summaries of errors are the captures with a compact header. -/
theorem domain_of_code_table :
    (∀ (tag : String) (version : UInt8) (kind : CaptureKind),
      let stripped := String.ofList (trimEnd CaptureKind.isPadding tag.toList)
      CaptureKind.resolve? tag version = some kind ↔
        (stripped = "PNN" ∧ 1 ≤ version.toNat ∧ version.toNat ≤ 10 ∧
          CaptureKind.all[version.toNat - 1]? = some kind) ∨
        (stripped = "PNN1" ∧ version = 0 ∧ kind = .modulationProfile) ∨
        (stripped = "LLD0" ∧ version = 1 ∧ kind = .latencyReport)) ∧
    ∀ (bytes : List UInt8) (h : Header), parse bytes = .ok h →
      (h.kind?.isSome ↔
        bytes.take 3 = [0x50, 0x4E, 0x4E] ∧
          ∃ version, bytes[3]? = some version ∧ 1 ≤ version.toNat ∧ version.toNat ≤ 10) ∧
      h.kind? ≠ some .latencyReport ∧
      (h.kind? = some .fecSummary ↔ h.kind?.isSome ∧ h.layout = .compact) := by
  constructor
  · intro tag version kind stripped
    -- Stripped texts are compared as lists of characters, as spellings are.
    have hspelled : ∀ text : String, stripped = text ↔
        trimEnd CaptureKind.isPadding tag.toList = text.toList := fun text => by
      rw [← String.toList_inj, String.toList_ofList]
    rw [CaptureKind.resolve?_eq_some, CaptureKind.spelling_iff, hspelled, hspelled, hspelled,
      CaptureKind.getElem?_all_version, ← UInt8.toNat_inj, ← UInt8.toNat_inj]
    rfl
  · intro bytes h hparse
    refine ⟨?_, ?_, kind?_eq_fecSummary_of_parse hparse⟩
    · rw [kind?_isSome_of_parse hparse, tag_of_parse hparse, getElem?_three_of_parse hparse]
      simp
    · intro hkind
      exact ((kind?_of_parse hparse).1 hkind).2.2 rfl

/-- A padded tag keeps the digit that makes it a second spelling. A version 8 behind the plain tag
is a summary of errors; behind the tag of latency reports it is nothing. -/
theorem domain_of_code_table_second_spelling :
    let summary : Header :=
      { tag := "PNN", version := 8, major := 1, minor := 2, captureTime := 0, layout := .compact
        payload := [] }
    let stranger : Header := { summary with tag := "LLD" }
    CaptureKind.resolve? "PNN1\x00 " 0 = some .modulationProfile ∧
      parse [0x50, 0x4E, 0x4E, 8, 1, 2] = .ok summary ∧ summary.kind? = some .fecSummary ∧
      parse [0x4C, 0x4C, 0x44, 8, 1, 2] = .ok stranger ∧ ¬ stranger.kind?.isSome := by
  intro summary stranger
  have hsummary : parse [0x50, 0x4E, 0x4E, 8, 1, 2] = .ok summary := by decide +kernel
  have hstranger : parse [0x4C, 0x4C, 0x44, 8, 1, 2] = .ok stranger := by decide +kernel
  obtain ⟨hsome, -, hcompact⟩ := domain_of_code_table.2 _ _ hsummary
  refine ⟨(domain_of_code_table.1 _ _ _).2 (.inr (.inl ⟨by decide, rfl, rfl⟩)), hsummary,
    hcompact.2 ⟨hsome.2 ⟨rfl, 8, rfl, by decide, by decide⟩, rfl⟩, hstranger, ?_⟩
  intro hkind
  have htag := ((domain_of_code_table.2 _ _ hstranger).1.1 hkind).1
  exact absurd htag (by decide)

end Header

end CableCapture
