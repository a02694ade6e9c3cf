import CableCapture.Proofs.Numeric.BitOrder
import CableCapture.Proofs.Numeric.Shares
import CableCapture.Proofs.Numeric.Streams
import CableCapture.Proofs.Record.ArrayLengths

/-!
# The main tap

The energy of an equalizer tap is the sum of two squared codes, and floats hold it without an error.
So the main tap, which is found by the bit patterns of energies, is the last of the taps whose codes
have the greatest energy. Its share of the total energy is positive and at most one, although the
total is rounded.
-/

namespace CableCapture

open Binary64

/-! ## Energies of samples -/

namespace Complex

variable {c : Complex} {a b : ℤ}

theorem abs_square_le (ha : |a| ≤ 2 ^ 15) : |a * a| ≤ 2 ^ 30 := by
  rw [abs_mul]
  nlinarith [abs_nonneg a]

/-- Integers of so many bits over this power of two are floats. -/
theorem rounded_of_squares {n : ℤ} (hn : |n| ≤ 2 ^ 31) : rounded (n / 2 ^ 28) = n / 2 ^ 28 := by
  have hgrid : (n : ℚ) / 2 ^ 28 = n * 2 ^ (-28 : ℤ) := by
    rw [zpow_neg, div_eq_mul_inv]
    norm_cast
  rw [hgrid]
  exact rounded_of_grid (hn.trans_lt (by norm_num)) (by norm_num)

theorem abs_squares_lt {n : ℤ} (hn : |n| ≤ 2 ^ 31) : |(n : ℚ) / 2 ^ 28| < 2 ^ (1024 : ℤ) := by
  have hbound : |(n : ℚ)| ≤ 2 ^ 31 := by exact_mod_cast hn
  rw [abs_div, abs_of_pos (by positivity : (0 : ℚ) < 2 ^ 28)]
  calc |(n : ℚ)| / 2 ^ 28 ≤ 2 ^ 31 / 2 ^ 28 := by gcongr
    _ < 2 ^ (4 : ℤ) := by norm_num
    _ ≤ 2 ^ (1024 : ℤ) := zpow_le_zpow_right₀ (by norm_num) (by norm_num)

theorem denotes_square {x : Float} (hx : Denotes x (a / 2 ^ 14)) (ha : |a| ≤ 2 ^ 15) :
    Denotes (x * x) ((a * a : ℤ) / 2 ^ 28) := by
  have hproduct : (a : ℚ) / 2 ^ 14 * (a / 2 ^ 14) = (a * a : ℤ) / 2 ^ 28 := by
    push_cast
    ring
  have hsquare : |a * a| ≤ 2 ^ 31 := (abs_square_le ha).trans (by norm_num)
  refine (hx.mul_exact hx ?_ ?_).cast hproduct
  · rw [hproduct]
    exact rounded_of_squares hsquare
  · rw [hproduct]
    exact abs_squares_lt hsquare

section Codes

variable (hre : Denotes c.re (a / 2 ^ 14)) (him : Denotes c.im (b / 2 ^ 14)) (ha : |a| ≤ 2 ^ 15)
  (hb : |b| ≤ 2 ^ 15)
include hre him ha hb

/-- The energy is not rounded. -/
theorem denotes_normSq : Denotes c.normSq ((a * a + b * b : ℤ) / 2 ^ 28) := by
  have hsum : ((a * a : ℤ) : ℚ) / 2 ^ 28 + (b * b : ℤ) / 2 ^ 28 =
      (a * a + b * b : ℤ) / 2 ^ 28 := by
    push_cast
    ring
  have henergy : |a * a + b * b| ≤ 2 ^ 31 :=
    (abs_add_le _ _).trans (by linarith [abs_square_le ha, abs_square_le hb])
  refine ((denotes_square hre ha).add_exact (denotes_square him hb) ?_ ?_).cast hsum
  · rw [hsum]
    exact rounded_of_squares henergy
  · rw [hsum]
    exact abs_squares_lt henergy

/-- No energy is a negative zero. -/
theorem isNegative_normSq : isNegative c.normSq.toBits = false := by
  have henergy := denotes_normSq hre him ha hb
  rcases (add_nonneg (mul_self_nonneg a) (mul_self_nonneg b)).eq_or_lt with hzero | hpos
  · obtain ⟨rfl, rfl⟩ := mul_self_add_mul_self_eq_zero.1 hzero.symm
    have hsquareRe : c.re * c.re = 0.0 := (hre.cast (by simp)).mul_self_of_zero
    have hsquareIm : c.im * c.im = 0.0 := (him.cast (by simp)).mul_self_of_zero
    unfold normSq
    rw [hsquareRe, hsquareIm]
    rfl
  · apply henergy.isNegative_of_pos
    exact div_pos (by exact_mod_cast hpos) (by norm_num)

end Codes

end Complex

namespace PreEqualization

/-! ## Codes of taps -/

/-- The signed code of two bytes at a position, the first of them counting least. -/
def codeAt (payload : List UInt8) (pos : ℕ) : ℤ :=
  Int.bmod (spelledAt payload 2 pos) (2 ^ 16)

/-- The code of the real part of a tap. -/
def realCode (payload : List UInt8) (i : ℕ) : ℤ := codeAt payload (24 + 4 * i)

def imaginaryCode (payload : List UInt8) (i : ℕ) : ℤ := codeAt payload (24 + 4 * i + 2)

/-- The energy of a tap, in codes. -/
def energyAt (payload : List UInt8) (i : ℕ) : ℤ :=
  realCode payload i * realCode payload i + imaginaryCode payload i * imaginaryCode payload i

theorem abs_codeAt_le (payload : List UInt8) (pos : ℕ) : |codeAt payload pos| ≤ 2 ^ 15 := by
  have hlower := Int.le_bmod (x := spelledAt payload 2 pos) (m := 2 ^ 16) (by norm_num)
  have hupper := Int.bmod_lt (x := spelledAt payload 2 pos) (m := 2 ^ 16) (by norm_num)
  unfold codeAt
  rw [abs_le]
  constructor <;> omega

theorem energyAt_nonneg (payload : List UInt8) (i : ℕ) : 0 ≤ energyAt payload i :=
  add_nonneg (mul_self_nonneg _) (mul_self_nonneg _)

theorem energyAt_le (payload : List UInt8) (i : ℕ) : energyAt payload i ≤ 2 ^ 31 := by
  have hre := Complex.abs_square_le (abs_codeAt_le payload (24 + 4 * i))
  have him := Complex.abs_square_le (abs_codeAt_le payload (24 + 4 * i + 2))
  rw [abs_of_nonneg (mul_self_nonneg _)] at hre him
  unfold energyAt realCode imaginaryCode
  omega

theorem spelledAt_drop (bytes : List UInt8) (n width start : ℕ) :
    spelledAt (bytes.drop n) width start = spelledAt bytes width (n + start) := by
  unfold spelledAt
  refine Finset.sum_congr rfl fun k _ => ?_
  rw [List.getD_eq_getElem?_getD, List.getElem?_drop, List.getD_eq_getElem?_getD, Nat.add_assoc]

theorem denotes_component {payload : List UInt8} {raw : UInt64} {pos : ℕ}
    (hraw : raw.toNat = spelledAt payload 2 pos) :
    Denotes (FixedPoint.q1_14.decode raw true) (codeAt payload pos / 2 ^ 14) := by
  have hdecode := FixedPoint.denotes_decode (f := FixedPoint.q1_14) (by decide) raw true
  rw [FixedPoint.numerator_eq_bmod (by decide), hraw] at hdecode
  exact hdecode

/-- Every tap has the codes of its own four bytes, and the taps are few enough to be added up. -/
structure Coded (payload : List UInt8) (taps : List Complex) : Prop where
  length_eq : taps.length = (payload.length - 24) / 4
  re : ∀ (i : ℕ) (hi : i < taps.length), Denotes taps[i].re (realCode payload i / 2 ^ 14)
  im : ∀ (i : ℕ) (hi : i < taps.length), Denotes taps[i].im (imaginaryCode payload i / 2 ^ 14)
  length_lt : taps.length < 2 ^ 30

theorem coded_of_decode {h : Header} {r : PreEqualization} (hread : decode h = .ok r) :
    Coded h.payload r.taps := by
  obtain ⟨preamble, hexpect, -⟩ := bind_eq_ok.1 hread
  obtain ⟨kind, hmem, hkind, -⟩ := Header.expect_eq_ok.1 hexpect
  obtain ⟨-, hcount, horder⟩ := (lengthLaw (Header.kind_eq_ok.1 hkind) hmem).holds r hread
  have hwidth : FixedPoint.q1_14.byteWidth = .ok 2 := rfl
  have htap (i : ℕ) (hi : i < r.taps.length) :
      FixedPoint.q1_14.ReadAt 2 true (h.payload.drop 24) (4 * i) r.taps[i] := by
    have hlength := horder.length_eq
    rw [horder.getElem_eq i hi]
    exact FixedPoint.readAt_decodeSample hwidth (by omega) true
  refine ⟨?_, fun i hi => ?_, fun i hi => ?_, ?_⟩
  · rw [horder.length_eq, List.length_drop]
  · obtain ⟨re, im, hre, -, hsample⟩ := htap i hi
    rw [hsample]
    exact denotes_component (hre.trans (spelledAt_drop _ _ _ _))
  · obtain ⟨re, im, -, him, hsample⟩ := htap i hi
    rw [hsample]
    exact denotes_component (him.trans (spelledAt_drop _ _ _ _))
  · have hannounced : announced h.payload 24 < 2 ^ 32 := UInt32.toNat_lt _
    omega

section Coded

variable {payload : List UInt8} {taps : List Complex} (h : Coded payload taps) {i j : ℕ}
include h

theorem Coded.denotes_normSq (hi : i < taps.length) :
    Denotes taps[i].normSq (energyAt payload i / 2 ^ 28) :=
  Complex.denotes_normSq (h.re i hi) (h.im i hi) (abs_codeAt_le _ _) (abs_codeAt_le _ _)

/-- Energies compare as the integers of their codes. -/
theorem Coded.orderKey_le_iff (hi : i < taps.length) (hj : j < taps.length) :
    (SignedNumber.ofFloat taps[i].normSq).orderKey ≤ (SignedNumber.ofFloat taps[j].normSq).orderKey ↔
      energyAt payload i ≤ energyAt payload j := by
  have hsign {k : ℕ} (hk : k < taps.length) : isNegative taps[k].normSq.toBits = false :=
    Complex.isNegative_normSq (h.re k hk) (h.im k hk) (abs_codeAt_le _ _) (abs_codeAt_le _ _)
  rw [(h.denotes_normSq hi).orderKey_le_iff (h.denotes_normSq hj) (hsign hi) (hsign hj),
    div_le_div_iff_of_pos_right (by positivity), Int.cast_le]

end Coded

/-! ## The last greatest element -/

/-- The element at this index is a greatest one, and greater than all behind it. -/
structure IsLastMax (xs : List Float) (i : ℕ) (x : Float) : Prop where
  get : xs[i]? = some x
  le : ∀ y ∈ xs, (SignedNumber.ofFloat y).orderKey ≤ (SignedNumber.ofFloat x).orderKey
  lt : ∀ j y, i < j → xs[j]? = some y →
    (SignedNumber.ofFloat y).orderKey < (SignedNumber.ofFloat x).orderKey

theorem lastMax_eq_none {xs : List Float} : lastMax xs = none ↔ xs = [] := by
  cases xs with
  | nil => exact iff_of_true rfl rfl
  | cons x rest =>
    refine iff_of_false ?_ (by simp)
    unfold lastMax
    split
    · simp
    · split <;> simp

theorem isLastMax_of_lastMax {xs : List Float} {i : ℕ} {x : Float} (h : lastMax xs = some (i, x)) :
    IsLastMax xs i x := by
  induction xs generalizing i x with
  | nil => cases h
  | cons first rest ih =>
    unfold lastMax at h
    split at h
    · rename_i hnone
      obtain ⟨rfl, rfl⟩ := Prod.mk.inj (Option.some.inj h)
      rw [lastMax_eq_none.1 hnone]
      refine ⟨rfl, by simp, fun j y hj hy => ?_⟩
      rw [List.getElem?_eq_none hj] at hy
      cases hy
    · rename_i k y hsome
      have hrest := ih hsome
      split at h
      · rename_i hle
        obtain ⟨rfl, rfl⟩ := Prod.mk.inj (Option.some.inj h)
        refine ⟨hrest.get, List.forall_mem_cons.2 ⟨hle, hrest.le⟩, fun j z hj hz => ?_⟩
        obtain ⟨j, rfl⟩ := Nat.exists_eq_succ_of_ne_zero (Nat.ne_zero_of_lt hj)
        exact hrest.lt j z (Nat.lt_of_succ_lt_succ hj) hz
      · rename_i hgreater
        obtain ⟨rfl, rfl⟩ := Prod.mk.inj (Option.some.inj h)
        have hall (z : Float) (hz : z ∈ rest) := (hrest.le z hz).trans_lt (not_le.1 hgreater)
        refine ⟨rfl, List.forall_mem_cons.2 ⟨le_refl _, fun z hz => (hall z hz).le⟩, ?_⟩
        intro j z hj hz
        obtain ⟨j, rfl⟩ := Nat.exists_eq_succ_of_ne_zero hj.ne'
        exact hall z (List.mem_of_getElem? hz)

/-! ## The main tap -/

/-- The last one of so many taps with the greatest energy. -/
def IsMainTap (payload : List UInt8) (count i : ℕ) : Prop :=
  i < count ∧ (∀ j < count, energyAt payload j ≤ energyAt payload i) ∧
    ∀ j < count, i < j → energyAt payload j < energyAt payload i

theorem IsMainTap.unique {payload : List UInt8} {count i j : ℕ} (hi : IsMainTap payload count i)
    (hj : IsMainTap payload count j) : i = j := by
  obtain ⟨hin, hile, hilt⟩ := hi
  obtain ⟨hjn, hjle, hjlt⟩ := hj
  rcases lt_trichotomy i j with hlt | heq | hgt
  · exact absurd (hjle i hin) (not_le.2 (hilt j hjn hlt))
  · exact heq
  · exact absurd (hile j hjn) (not_le.2 (hjlt i hin hgt))

section Selection

variable {payload : List UInt8} {r : PreEqualization} {i : ℕ} {energy : Float}

theorem mainTap_eq_none : r.mainTap = none ↔ r.taps = [] :=
  lastMax_eq_none.trans List.map_eq_nil_iff

theorem isMainTap_of_mainTap (h : Coded payload r.taps) (hmain : r.mainTap = some (i, energy)) :
    ∃ hi : i < r.taps.length, energy = r.taps[i].normSq ∧
      IsMainTap payload r.taps.length i := by
  have hlast := isLastMax_of_lastMax hmain
  obtain ⟨hi, hget⟩ := List.getElem?_eq_some_iff.1 hlast.get
  rw [List.length_map] at hi
  rw [List.getElem_map] at hget
  subst hget
  refine ⟨hi, rfl, hi, fun j hj => ?_, fun j hj hlater => ?_⟩
  · exact (h.orderKey_le_iff hj hi).1 (hlast.le _ (List.mem_map_of_mem (List.getElem_mem hj)))
  · rw [← not_le, ← h.orderKey_le_iff hi hj, not_le]
    exact hlast.lt j _ hlater (by rw [List.getElem?_map, List.getElem?_eq_getElem hj]; rfl)

theorem mainTapIndex_eq_some (h : Coded payload r.taps) :
    r.mainTapIndex = some i ↔ IsMainTap payload r.taps.length i := by
  unfold mainTapIndex
  constructor
  · intro hindex
    obtain ⟨⟨k, energy⟩, hmain, rfl⟩ := Option.map_eq_some_iff.1 hindex
    exact (isMainTap_of_mainTap h hmain).2.2
  · intro hi
    cases hmain : r.mainTap with
    | none =>
      rw [mainTap_eq_none.1 hmain] at hi
      exact absurd hi.1 (Nat.not_lt_zero i)
    | some main =>
      obtain ⟨k, energy⟩ := main
      obtain ⟨-, -, hk⟩ := isMainTap_of_mainTap h hmain
      exact congrArg some (hk.unique hi)

end Selection

/-! ## Its share -/

section Share

variable {payload : List UInt8} {taps : List Complex} (h : Coded payload taps)
include h

theorem Coded.exists_bounded {bound : ℕ}
    (hbound : ∀ i < taps.length, (energyAt payload i : ℚ) / 2 ^ 28 ≤ bound) :
    ∀ x ∈ taps.map Complex.normSq, Bounded bound x := by
  intro x hx
  obtain ⟨c, hc, rfl⟩ := List.mem_map.1 hx
  obtain ⟨i, hi, rfl⟩ := List.mem_iff_getElem.1 hc
  have hnonneg : (0 : ℚ) ≤ energyAt payload i := by exact_mod_cast energyAt_nonneg payload i
  exact ⟨_, h.denotes_normSq hi, div_nonneg hnonneg (by norm_num), hbound i hi⟩

theorem Coded.exists_total :
    ∃ t, Denotes (sum (taps.map Complex.normSq)) t ∧ 0 ≤ t ∧ t ≤ 2 ^ 33 ∧
      ∀ i < taps.length, (energyAt payload i : ℚ) / 2 ^ 28 ≤ t := by
  have hlength := h.length_lt
  have height : ∀ i < taps.length, (energyAt payload i : ℚ) / 2 ^ 28 ≤ (8 : ℕ) := by
    intro i _
    have hle : (energyAt payload i : ℚ) ≤ 2 ^ 31 := by exact_mod_cast energyAt_le payload i
    rw [div_le_iff₀ (by norm_num)]
    exact hle.trans (by norm_num)
  obtain ⟨t, ht, hnonneg, hall, hbound⟩ :=
    exists_sum (h.exists_bounded height) (by rw [List.length_map]; omega)
  refine ⟨t, ht, hnonneg, hbound.trans ?_, fun i hi => ?_⟩
  · have hcount : (taps.length : ℚ) ≤ 2 ^ 30 := by exact_mod_cast hlength.le
    rw [List.length_map]
    push_cast
    linarith
  · rw [← (h.denotes_normSq hi).value_eq]
    exact hall _ (List.mem_map_of_mem (List.getElem_mem hi))

/-- Nothing of the energy is lost altogether, however small it is. -/
theorem Coded.total_eq_zero {t : ℚ} (ht : Denotes (sum (taps.map Complex.normSq)) t) :
    t = 0 ↔ ∀ i < taps.length, realCode payload i = 0 ∧ imaginaryCode payload i = 0 := by
  have hsilent (i : ℕ) : energyAt payload i = 0 ↔
      realCode payload i = 0 ∧ imaginaryCode payload i = 0 := mul_self_add_mul_self_eq_zero
  simp only [← hsilent]
  constructor
  · rintro rfl i hi
    obtain ⟨s, hs, -, -, hall⟩ := h.exists_total
    have hle := hall i hi
    rw [hs.eq ht, div_le_iff₀ (by norm_num), zero_mul] at hle
    exact le_antisymm (by exact_mod_cast hle) (energyAt_nonneg payload i)
  · intro hzero
    have hbounded : ∀ x ∈ taps.map Complex.normSq, Bounded 0 x :=
      h.exists_bounded fun i hi => by simp [hzero i hi]
    obtain ⟨s, hs, hnonneg, -, hbound⟩ := exists_sum hbounded (by omega)
    rw [ht.eq hs]
    exact le_antisymm (by simpa using hbound) hnonneg

theorem Coded.share_of_mainTap {i : ℕ} (hi : i < taps.length)
    (hmain : IsMainTap payload taps.length i)
    {t : ℚ} (ht : Denotes (sum (taps.map Complex.normSq)) t) (hne : t ≠ 0) :
    ∃ s, Denotes (taps[i].normSq / sum (taps.map Complex.normSq)) s ∧ 0 < s ∧ s ≤ 1 := by
  obtain ⟨u, hu, hnonneg, hupper, hall⟩ := h.exists_total
  obtain rfl := ht.eq hu
  have hpos : 0 < t := lt_of_le_of_ne hnonneg hne.symm
  have henergy : 1 ≤ energyAt payload i := by
    by_contra hsmall
    have hzero (j : ℕ) (hj : j < taps.length) : energyAt payload j = 0 :=
      le_antisymm ((hmain.2.1 j hj).trans (by omega)) (energyAt_nonneg payload j)
    exact hne ((h.total_eq_zero ht).2 fun j hj => mul_self_add_mul_self_eq_zero.1 (hzero j hj))
  refine (h.denotes_normSq hi).share ht ?_ hpos (hall i hi)
  have hone : (1 : ℚ) ≤ energyAt payload i := by exact_mod_cast henergy
  calc (2 : ℚ) ^ (-1074 : ℤ) ≤ 2 ^ (-61 : ℤ) := zpow_le_zpow_right₀ (by norm_num) (by norm_num)
    _ = 1 / 2 ^ 28 / 2 ^ 33 := by norm_num
    _ ≤ energyAt payload i / 2 ^ 28 / t := by gcongr

end Share

/-! ## Main result -/

theorem mainTapEnergyRatio_of_some {r : PreEqualization} {i : ℕ} {energy : Float}
    (hmain : r.mainTap = some (i, energy)) :
    r.mainTapEnergyRatio =
      if sum (r.taps.map Complex.normSq) == 0.0 then none
      else some (energy / sum (r.taps.map Complex.normSq)) := by
  unfold mainTapEnergyRatio
  rw [hmain]
  rfl

/-- There is a main tap if there are taps at all: the last of those with the greatest energy in their
codes. It has a level unless all codes are zero, and the level is that of a positive share which is
at most one. -/
theorem main_tap_of_decode {h : Header} {r : PreEqualization} (hread : decode h = .ok r) :
    r.taps.length = (h.payload.length - 24) / 4 ∧
    (r.mainTapIndex = none ↔ r.taps = []) ∧
    (∀ i, r.mainTapIndex = some i ↔ IsMainTap h.payload r.taps.length i) ∧
    (∀ (i j : ℕ) (hi : i < r.taps.length) (hj : j < r.taps.length),
      (SignedNumber.ofFloat r.taps[i].normSq).orderKey ≤
          (SignedNumber.ofFloat r.taps[j].normSq).orderKey ↔
        energyAt h.payload i ≤ energyAt h.payload j) ∧
    (r.mainTapLevel = none ↔ r.taps = [] ∨
      ∀ i < r.taps.length, realCode h.payload i = 0 ∧ imaginaryCode h.payload i = 0) ∧
    ∀ level, r.mainTapLevel = some level → ∃ (i : ℕ) (hi : i < r.taps.length) (ratio : Float),
      r.mainTapIndex = some i ∧
      ratio = r.taps[i].normSq / sum (r.taps.map Complex.normSq) ∧
      level = 10.0 * ratio.log10 ∧ 0.0 < ratio ∧ ratio ≤ 1.0 := by
  have hcoded := coded_of_decode hread
  refine ⟨hcoded.length_eq, Option.map_eq_none_iff.trans mainTap_eq_none,
    fun i => mainTapIndex_eq_some hcoded, fun i j hi hj => hcoded.orderKey_le_iff hi hj, ?_⟩
  obtain ⟨t, ht, -⟩ := hcoded.exists_total
  have hzero := ht.beq_iff denotes_zero
  have hsilent := hcoded.total_eq_zero ht
  unfold mainTapLevel
  cases hmain : r.mainTap with
  | none =>
    have hnone : r.mainTapEnergyRatio = none := by
      unfold mainTapEnergyRatio
      rw [hmain]
      rfl
    rw [hnone]
    exact ⟨iff_of_true rfl (.inl (mainTap_eq_none.1 hmain)), by simp⟩
  | some main =>
    obtain ⟨i, energy⟩ := main
    obtain ⟨hi, rfl, hselected⟩ := isMainTap_of_mainTap hcoded hmain
    have hfilled : r.taps ≠ [] := List.ne_nil_of_length_pos (Nat.zero_lt_of_lt hi)
    rw [mainTapEnergyRatio_of_some hmain]
    by_cases hne : t = 0
    · rw [if_pos (hzero.2 hne)]
      exact ⟨iff_of_true rfl (.inr (hsilent.1 hne)), by simp⟩
    · rw [if_neg (mt hzero.1 hne)]
      refine ⟨iff_of_false (by simp) ?_, ?_⟩
      · rintro (hempty | hcodes)
        · exact hfilled hempty
        · exact hne (hsilent.2 hcodes)
      · intro level hlevel
        obtain ⟨s, hs, hpos, hle⟩ := hcoded.share_of_mainTap hi hselected ht hne
        refine ⟨i, hi, _, (mainTapIndex_eq_some hcoded).2 hselected, rfl,
          (Option.some.inj hlevel).symm, (denotes_zero.lt_iff hs).2 hpos, ?_⟩
        exact (hs.le_iff (y := 1.0) denotes_one).2 hle

/-- Three taps, of which the first two have the greatest energy that there is in one component. -/
def twoStrongestTaps : Header where
  tag := "PNN"
  version := 6
  major := 1
  minor := 0
  captureTime := 9
  layout := .standard
  payload := [2, 0, 0, 0, 0, 0, 1, 0, 0, 0, 0, 0, 2, 0, 0, 0, 0, 0, 74, 50] ++
    declaredBytes [0x00, 0x80, 0x00, 0x00, 0x00, 0x00, 0x00, 0x80, 0xFF, 0x7F, 0x00, 0x00]

theorem main_tap_of_twoStrongestTaps :
    ∃ r, decode twoStrongestTaps = .ok r ∧ r.mainTapIndex = some 1 ∧ r.mainTapLevel ≠ none := by
  have hmem : CaptureKind.preEqualization ∈
      [CaptureKind.preEqualization, .preEqualizationLastUpdate] := by decide
  obtain ⟨r, hr⟩ :=
    (lengthLaw (h := twoStrongestTaps) (by decide) hmem).accepted.2 (by decide)
  obtain ⟨hcount, -, hindex, -, hlevel, -⟩ := main_tap_of_decode hr
  have hthree : r.taps.length = 3 := hcount
  rw [hthree] at hindex hlevel
  refine ⟨r, hr, (hindex 1).2 ?_, mt hlevel.1 ?_⟩
  · unfold IsMainTap
    decide +kernel
  · rintro (hempty | hsilent)
    · rw [hempty] at hthree
      cases hthree
    · exact absurd (hsilent 0 (by decide)).1 (by decide +kernel)

end PreEqualization

end CableCapture
