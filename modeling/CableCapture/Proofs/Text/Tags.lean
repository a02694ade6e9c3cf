import CableCapture.Capture
import Mathlib.Tactic.NormNum

/-!
# Tags and versions

A text of as many characters as bytes, none of them a replacement, leaves no choice of the bytes.
Nothing separates the tag from the version in a code, so a code of two digits has two spellings. A
tag of three bytes and a version spell a code of the table in one way only, and never the code of a
latency report.
-/

namespace CableCapture

/-! ## Plain text -/

namespace Utf8

theorem tailRun_isPrefix (ranges : List Range) (bytes : List UInt8) :
    tailRun ranges bytes <+: bytes := by
  induction ranges generalizing bytes with
  | nil => simp [tailRun]
  | cons r ranges ih =>
    cases bytes with
    | nil => simp [tailRun]
    | cons b rest =>
      rw [tailRun]
      split
      · exact (List.prefix_cons_inj b).2 (ih rest)
      · exact List.nil_prefix

/-- One character is read from a lead byte and its tail. Without a tail it is the byte itself, if
it is not a replacement. -/
theorem decode_cons (lead : UInt8) (rest : List UInt8) :
    ∃ c k, k ≤ rest.length ∧ decode (lead :: rest) = c :: decode (rest.drop k) ∧
      (k = 0 → c = replacement ∨ c = Char.ofNat lead.toNat) := by
  rw [decode]
  cases hranges : tailRanges lead with
  | none => exact ⟨replacement, 0, Nat.zero_le _, rfl, fun _ => .inl rfl⟩
  | some ranges =>
    refine ⟨_, (tailRun ranges rest).length, (tailRun_isPrefix ranges rest).length_le, rfl, ?_⟩
    intro htail
    rw [htail]
    split
    · rw [List.length_eq_zero_iff.1 htail]
      exact .inr rfl
    · exact .inl rfl

theorem length_decode_le (bytes : List UInt8) : (decode bytes).length ≤ bytes.length := by
  induction h : bytes.length using Nat.strongRecOn generalizing bytes with
  | ind n ih =>
    cases bytes with
    | nil => simp [decode]
    | cons lead rest =>
      obtain ⟨c, k, -, hdecode, -⟩ := decode_cons lead rest
      have hshorter : (rest.drop k).length < n := by
        rw [← h, List.length_drop, List.length_cons]
        omega
      have hrest := ih _ hshorter _ rfl
      rw [List.length_drop] at hrest
      rw [hdecode, ← h, List.length_cons, List.length_cons]
      omega

/-- The only bytes of a text of the same length without replacements. -/
theorem eq_map_of_decode {bytes : List UInt8} {cs : List Char} (h : decode bytes = cs)
    (hlen : bytes.length ≤ cs.length) (hplain : replacement ∉ cs) :
    bytes = cs.map fun c => UInt8.ofNat c.toNat := by
  induction bytes generalizing cs with
  | nil =>
    rw [← h]
    simp [decode]
  | cons lead rest ih =>
    obtain ⟨c, k, hk, hdecode, hlead⟩ := decode_cons lead rest
    rw [hdecode] at h
    subst h
    have hrest := length_decode_le (rest.drop k)
    rw [List.length_drop] at hrest
    simp only [List.length_cons] at hlen
    have hzero : k = 0 := by omega
    subst hzero
    rw [List.mem_cons, not_or] at hplain
    obtain rfl := (hlead rfl).resolve_left (Ne.symm hplain.1)
    have htail := ih rfl (Nat.le_of_succ_le_succ hlen) hplain.2
    have hvalid : lead.toNat.isValidChar := .inl (lead.toNat_lt.trans (by norm_num))
    have hchar : (Char.ofNat lead.toNat).toNat = lead.toNat := by
      rw [Char.ofNat, dif_pos hvalid]
      rfl
    rw [List.drop_zero, List.map_cons, ← htail, hchar, UInt8.ofNat_toNat]

end Utf8

/-! ## Codes -/

theorem trimEnd_prefix (drop : Char → Bool) (cs : List Char) : trimEnd drop cs <+: cs := by
  unfold trimEnd
  rw [← List.reverse_suffix, List.reverse_reverse]
  exact List.dropWhile_suffix drop

/-- Letters end where digits begin, so what stands in front of the last digits of a number is the
letters and its other digits. -/
theorem append_digits_split {cs letters digits number : List Char}
    (h : cs ++ digits = letters ++ number) (hdigits : ∀ c ∈ digits, c.isDigit)
    (hletters : letters.any Char.isDigit = false) :
    ∃ more, cs = letters ++ more ∧ number = more ++ digits := by
  rcases List.append_eq_append_iff.1 h with ⟨more, rfl, rfl⟩ | hsplit
  · cases more with
    | nil => exact ⟨[], by simp, rfl⟩
    | cons c more =>
      have hletter := List.any_eq_false.1 hletters c (by simp)
      exact absurd (hdigits c (by simp)) hletter
  · exact hsplit

theorem toDigits_inj {m n : Nat} (h : Nat.toDigits 10 m = Nat.toDigits 10 n) : m = n := by
  rw [← Nat.ofDigitChars_ten_toDigits (n := m), h, Nat.ofDigitChars_ten_toDigits]

section Spellings

variable {cs letters : List Char} {n : Nat} {a b : Char}

theorem append_number_split {number : List Char}
    (h : cs ++ Nat.toDigits 10 n = letters ++ number)
    (hletters : letters.any Char.isDigit = false) :
    ∃ more, cs = letters ++ more ∧ number = more ++ Nat.toDigits 10 n :=
  append_digits_split h (fun _ => Nat.isDigit_of_mem_toDigits (by decide) (by decide)) hletters

/-- A code of one digit is spelled in one way. -/
theorem split_of_one_digit (h : cs ++ Nat.toDigits 10 n = letters ++ [a])
    (hletters : letters.any Char.isDigit = false) : cs = letters ∧ Nat.toDigits 10 n = [a] := by
  obtain ⟨more, rfl, hsplit⟩ := append_number_split h hletters
  rcases List.append_eq_singleton_iff.1 hsplit.symm with ⟨rfl, hn⟩ | ⟨-, hn⟩
  · exact ⟨List.append_nil letters, hn⟩
  · exact absurd hn Nat.toDigits_ne_nil

/-- A code of two digits is spelled with both behind the tag, or with the first in it. -/
theorem split_of_two_digits (h : cs ++ Nat.toDigits 10 n = letters ++ [a, b])
    (hletters : letters.any Char.isDigit = false) :
    cs = letters ∧ Nat.toDigits 10 n = [a, b] ∨
      cs = letters ++ [a] ∧ Nat.toDigits 10 n = [b] := by
  obtain ⟨more, rfl, hsplit⟩ := append_number_split h hletters
  match more with
  | [] => exact .inl ⟨List.append_nil letters, hsplit.symm⟩
  | c :: more =>
    simp only [List.cons_append, List.cons.injEq] at hsplit
    obtain ⟨rfl, hrest⟩ := hsplit
    rcases List.append_eq_singleton_iff.1 hrest.symm with ⟨rfl, hn⟩ | ⟨-, hn⟩
    · exact .inr ⟨rfl, hn⟩
    · exact absurd hn Nat.toDigits_ne_nil

end Spellings

namespace CaptureKind

variable {tag : String} {version : UInt8} {kind : CaptureKind}

theorem resolve?_eq_some :
    resolve? tag version = some kind ↔
      trimEnd isPadding tag.toList ++ Nat.toDigits 10 version.toNat = kind.code.toList := by
  constructor
  · intro h
    have hcode := List.find?_some h
    rw [beq_iff_eq] at hcode
    rw [hcode, lookupKey, String.toList_ofList]
  · intro hspell
    have hkey : lookupKey tag version = kind.code := by
      rw [lookupKey, hspell, String.ofList_toList]
    rw [resolve?, hkey, ofCode?_code]

theorem toList_code (hlatency : kind ≠ .latencyReport) :
    kind.code.toList = "PNN".toList ++ Nat.toDigits 10 (Capture.versionOf kind).toNat := by
  cases kind with
  | latencyReport => exact absurd rfl hlatency
  | _ => decide

/-- The spellings of a code. Only those of two digits have a second one, and the code of a latency
report is spelled with a digit in the tag only, since no version has a leading zero. -/
theorem spelling_iff {cs : List Char} {n : Nat} :
    cs ++ Nat.toDigits 10 n = kind.code.toList ↔
      (cs = "PNN".toList ∧ n = (Capture.versionOf kind).toNat ∧ kind ≠ .latencyReport) ∨
      (cs = "PNN1".toList ∧ n = 0 ∧ kind = .modulationProfile) ∨
      (cs = "LLD0".toList ∧ n = 1 ∧ kind = .latencyReport) := by
  constructor
  · intro h
    cases kind with
    | latencyReport =>
      have hcode : (code .latencyReport).toList = "LLD".toList ++ ['0', '1'] := by decide
      rw [hcode] at h
      rcases split_of_two_digits h rfl with ⟨-, hn⟩ | ⟨rfl, hn⟩
      · have hone : n = 1 := by
          rw [← Nat.ofDigitChars_ten_toDigits (n := n), hn]
          decide
        rw [hone] at hn
        exact absurd hn (by decide)
      · exact .inr (.inr ⟨by decide, toDigits_inj (n := 1) hn, rfl⟩)
    | modulationProfile =>
      have hcode : (code .modulationProfile).toList = "PNN".toList ++ ['1', '0'] := by decide
      rw [hcode] at h
      rcases split_of_two_digits h rfl with ⟨rfl, hn⟩ | ⟨rfl, hn⟩
      · exact .inl ⟨rfl, toDigits_inj (n := 10) hn, by decide⟩
      · exact .inr (.inl ⟨by decide, toDigits_inj (n := 0) hn, rfl⟩)
    | _ =>
      rw [toList_code (by decide)] at h
      obtain ⟨rfl, hn⟩ := split_of_one_digit h rfl
      exact .inl ⟨rfl, toDigits_inj hn, by decide⟩
  · rintro (⟨rfl, rfl, hlatency⟩ | ⟨rfl, rfl, rfl⟩ | ⟨rfl, rfl, rfl⟩)
    · exact (toList_code hlatency).symm
    · decide
    · decide

/-- What a tag of at most three characters and a version spell. -/
theorem tag_of_resolve? (h : resolve? tag version = some kind) (hlen : tag.toList.length ≤ 3) :
    tag = "PNN" ∧ version = Capture.versionOf kind ∧ kind ≠ .latencyReport := by
  have htrim := trimEnd_prefix isPadding tag.toList
  have hshort := htrim.length_le.trans hlen
  rcases spelling_iff.1 (resolve?_eq_some.1 h) with
    ⟨htag, hversion, hlatency⟩ | ⟨htag, -, -⟩ | ⟨htag, -, -⟩
  · rw [htag] at htrim
    refine ⟨?_, UInt8.toNat_inj.1 hversion, hlatency⟩
    rw [← String.toList_inj]
    exact (htrim.eq_of_length_le hlen).symm
  · rw [htag] at hshort
    exact absurd hshort (by decide)
  · rw [htag] at hshort
    exact absurd hshort (by decide)

theorem tag_bytes_of_decode {bytes : List UInt8} (h : String.ofList (Utf8.decode bytes) = "PNN")
    (hlen : bytes.length = 3) : bytes = [0x50, 0x4E, 0x4E] := by
  have hdecode : Utf8.decode bytes = "PNN".toList := by rw [← h, String.toList_ofList]
  have hplain := Utf8.eq_map_of_decode hdecode (by rw [hlen]; decide) (by decide)
  rw [hplain]
  decide

end CaptureKind

end CableCapture
