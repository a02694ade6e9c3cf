import CableCapture.Proofs.Chunks
import CableCapture.Proofs.Numeric.Arithmetic
import CableCapture.Proofs.Numeric.Comparison
import CableCapture.Record.RxMer
import CableCapture.Record.Spectrum

/-!
# Codes of levels and amplitudes

Quarters and hundredths of a dB go back to the codes they were read from, although most hundredths
have no exact float. The two highest level codes are read as one level.
-/

namespace CableCapture

open Binary64

/-! ## Levels -/

namespace RxMer

/-- The lowest code of the same level. -/
def lowestCode (code : UInt8) : UInt8 :=
  if code = 255 then 254 else code

theorem denotes_four : Denotes 4.0 4 := denotes_ofNat_small (n := 4) (by norm_num)

theorem denotes_quarters {n : ℕ} (hn : n < 2 ^ 53) : Denotes (Float.ofNat n / 4.0) (n / 4) :=
  (denotes_ofNat_small hn).div_exact denotes_four (by norm_num) (rounded_quarters hn)
    (abs_quarters_lt hn)

theorem denotes_highest : Denotes 63.5 (127 / 2) := by
  have hquarters : (63.5 : Float) = Float.ofNat 254 / 4.0 := by decide +kernel
  rw [hquarters]
  exact (denotes_quarters (by norm_num)).cast (by norm_num)

/-- Up to 254 a code is its level in quarters. -/
theorem levelOfCode_of_lt {code : UInt8} (h : code.toNat < 255) :
    levelOfCode code = Float.ofNat code.toNat / 4.0 := by
  have hlevel := denotes_quarters (n := code.toNat) (h.trans (by norm_num))
  have hcode : (code.toNat : ℚ) ≤ 254 := by exact_mod_cast Nat.le_of_lt_succ h
  unfold levelOfCode
  simp only
  rw [if_neg]
  rw [denotes_highest.lt_iff hlevel]
  linarith

theorem levelOfCode_highest : levelOfCode 255 = levelOfCode 254 := by decide +kernel

theorem codeOfLevel_of_lt {code : UInt8} (h : code.toNat < 255) :
    codeOfLevel (levelOfCode code) = code := by
  have hvalue : Denotes (Float.ofNat code.toNat) (code.toNat : ℤ) :=
    denotes_ofNat_small (h.trans (by norm_num))
  have hcode : |(code.toNat : ℤ)| ≤ 2 ^ 50 := by
    rw [Nat.abs_cast]
    omega
  have hnearest := nearestInt_div_mul hvalue denotes_four hcode (by norm_num) (by norm_num)
  unfold codeOfLevel
  rw [levelOfCode_of_lt h, hnearest, Int.toNat_natCast, UInt8.ofNat_toNat]

theorem levelOfCode_lowestCode (code : UInt8) : levelOfCode (lowestCode code) = levelOfCode code := by
  unfold lowestCode
  split
  · rename_i h
    rw [h, levelOfCode_highest]
  · rfl

theorem lowestCode_lt (code : UInt8) : (lowestCode code).toNat < 255 := by
  have hlt := code.toNat_lt
  unfold lowestCode
  split
  · decide
  · rename_i h
    rw [← UInt8.toNat_inj] at h
    change code.toNat ≠ 255 at h
    omega

/-- Of the codes of a level the lowest one is written. -/
theorem codeOfLevel_levelOfCode (code : UInt8) :
    codeOfLevel (levelOfCode code) = lowestCode code := by
  rw [← levelOfCode_lowestCode]
  exact codeOfLevel_of_lt (lowestCode_lt code)

/-- The lowest code for every level from a position on. -/
def lowestFrom (start : ℕ) (bytes : List UInt8) : List UInt8 :=
  bytes.take start ++ (bytes.drop start).map lowestCode

@[simp] theorem length_lowestFrom (start : ℕ) (bytes : List UInt8) :
    (lowestFrom start bytes).length = bytes.length := by
  simp [lowestFrom]
  omega

theorem lowestFrom_append (start : ℕ) (front bytes : List UInt8) :
    lowestFrom (front.length + start) (front ++ bytes) = front ++ lowestFrom start bytes := by
  unfold lowestFrom
  rw [List.take_length_add_append, List.drop_length_add_append, List.append_assoc]

theorem lowestFrom_zero (bytes : List UInt8) : lowestFrom 0 bytes = bytes.map lowestCode := rfl

/-- What stands in front of the levels is not changed. -/
theorem exists_of_lowestFrom {start : ℕ} {front rest bytes : List UInt8}
    (h : lowestFrom (front.length + start) bytes = front ++ rest) :
    ∃ more, bytes = front ++ more ∧ lowestFrom start more = rest := by
  have hlen : front.length ≤ bytes.length := by
    rw [← length_lowestFrom (front.length + start) bytes, h, List.length_append]
    exact Nat.le_add_right _ _
  have htake : (bytes.take front.length).length = front.length := by
    rw [List.length_take, min_eq_left hlen]
  have hsplit := lowestFrom_append start (bytes.take front.length) (bytes.drop front.length)
  rw [htake, List.take_append_drop, h] at hsplit
  obtain ⟨hfront, hrest⟩ := List.append_inj hsplit htake.symm
  refine ⟨bytes.drop front.length, ?_, hrest.symm⟩
  conv_lhs => rw [← List.take_append_drop front.length bytes, ← hfront]

theorem getElem?_lowestFrom (start : ℕ) (bytes : List UInt8) (i : ℕ) :
    (lowestFrom start bytes)[i]? = if i < start then bytes[i]? else bytes[i]?.map lowestCode := by
  unfold lowestFrom
  rw [List.getElem?_append, List.getElem?_take, List.getElem?_map, List.getElem?_drop,
    List.length_take]
  by_cases hfront : i < start
  · by_cases hlen : i < bytes.length
    · rw [if_pos (lt_min hfront hlen), if_pos hfront, if_pos hfront]
    · rw [if_neg (by omega), if_pos hfront, List.getElem?_eq_none (by omega),
        List.getElem?_eq_none (by omega), Option.map_none]
  · rw [if_neg (by omega), if_neg hfront]
    by_cases hlen : i < bytes.length
    · rw [min_eq_left (by omega), Nat.add_sub_cancel' (by omega)]
    · rw [List.getElem?_eq_none (by omega), List.getElem?_eq_none (by omega)]

theorem lowestCode_lowestCode (code : UInt8) : lowestCode (lowestCode code) = lowestCode code := by
  unfold lowestCode
  by_cases h : code = 255
  · rw [if_pos h]
    rfl
  · rw [if_neg h, if_neg h]

theorem lowestFrom_lowestFrom (start : ℕ) (bytes : List UInt8) :
    lowestFrom start (lowestFrom start bytes) = lowestFrom start bytes := by
  apply List.ext_getElem?
  intro i
  rw [getElem?_lowestFrom, getElem?_lowestFrom]
  by_cases hfront : i < start
  · rw [if_pos hfront]
  · rw [if_neg hfront, if_neg hfront, Option.map_map]
    exact Option.map_congr fun code _ => lowestCode_lowestCode code

theorem swapped_of_lowestCode {c d : UInt8} (h : lowestCode c = lowestCode d) (hne : c ≠ d) :
    c = 254 ∧ d = 255 ∨ c = 255 ∧ d = 254 := by
  unfold lowestCode at h
  split at h <;> split at h
  · rename_i hc hd
    exact absurd (hc.trans hd.symm) hne
  · rename_i hc hd
    exact .inr ⟨hc, h.symm⟩
  · rename_i hc hd
    exact .inl ⟨h, hd⟩
  · exact absurd h hne

/-- Bytes with the same lowest codes differ at levels only, and there in the codes of one level. -/
theorem swapped_of_lowestFrom {start : ℕ} {a b : List UInt8}
    (h : lowestFrom start a = lowestFrom start b) {i : ℕ} (hne : a[i]? ≠ b[i]?) :
    start ≤ i ∧ (a[i]? = some 254 ∧ b[i]? = some 255 ∨ a[i]? = some 255 ∧ b[i]? = some 254) := by
  have hi : (lowestFrom start a)[i]? = (lowestFrom start b)[i]? := by rw [h]
  rw [getElem?_lowestFrom, getElem?_lowestFrom] at hi
  by_cases hfront : i < start
  · rw [if_pos hfront, if_pos hfront] at hi
    exact absurd hi hne
  · rw [if_neg hfront, if_neg hfront] at hi
    refine ⟨not_lt.1 hfront, ?_⟩
    cases ha : a[i]? with
    | none =>
      rw [ha] at hi hne
      exact absurd (Option.map_eq_none_iff.1 hi.symm).symm hne
    | some c =>
      rw [ha] at hi hne
      obtain ⟨d, hb, hcode⟩ := Option.map_eq_some_iff.1 hi.symm
      rw [hb] at hne ⊢
      have hswap := swapped_of_lowestCode hcode.symm (fun heq => hne (congrArg some heq))
      simpa using hswap

end RxMer

/-! ## Amplitudes -/

namespace Spectrum

theorem denotes_hundred : Denotes 100.0 100 := denotes_ofNat_small (n := 100) (by norm_num)

theorem codeOfAmplitude_amplitudeOfCode (code : Int16) :
    codeOfAmplitude (amplitudeOfCode code) = code := by
  have hlower := code.le_toInt
  have hupper := code.toInt_lt
  have hcode : |code.toInt| ≤ 2 ^ 15 := by
    rw [abs_le]
    omega
  have hvalue : Denotes (Float.ofInt code.toInt) code.toInt :=
    denotes_ofInt_small (hcode.trans_lt (by norm_num))
  have hnearest := nearestInt_div_mul hvalue denotes_hundred (hcode.trans (by norm_num))
    (by norm_num) (by norm_num)
  unfold codeOfAmplitude amplitudeOfCode
  rw [hnearest, Int16.ofInt_toInt]

/-- What segments were cut from is what their amplitudes are written as. -/
theorem flatMap_codeOfAmplitude {binsPerSegment : UInt16} {data : List UInt8}
    {segments : List (List Float)} (h : segmentsOf binsPerSegment data = .ok segments) :
    segments.flatten.flatMap (fun a => BigEndian.ofInt16 (codeOfAmplitude a)) = data := by
  unfold segmentsOf at h
  split at h
  · cases h
  · rename_i hwhole
    split at h
    · rename_i hempty
      cases h
      rw [List.isEmpty_iff.1 hempty]
      rfl
    · split at h
      · cases h
      · rename_i hbins
        have hpos : 0 < binsPerSegment.toNat := by
          rw [Nat.pos_iff_ne_zero, ← UInt16.toNat_zero, Ne, UInt16.toNat_inj]
          exact hbins
        cases h
        rw [flatten_chunksOf hpos]
        apply flatMap_map_chunksOf (by decide) (not_not.1 hwhole)
        intro piece hpiece
        rw [codeOfAmplitude_amplitudeOfCode]
        exact BigEndian.ofInt16_toInt16 hpiece

end Spectrum

end CableCapture
