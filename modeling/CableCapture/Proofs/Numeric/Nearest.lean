import CableCapture.Proofs.Numeric.Folds
import CableCapture.Proofs.Numeric.Streams

/-!
# Nearest codes

What is written for a number is the code of the nearest value that has one. Scaling by a power of two
does not round, so that all depends on the integer nearest to the scaled number, where a half goes
away from zero, and on the ends of the range, which stand for everything beyond them. A product that
is too great for a float is an infinity and goes to the end of its side.
-/

namespace CableCapture

namespace Binary64

open Float.Model Float.Model.UnpackedFloat

variable {x y : Float} {v w : ℚ}

/-! ## Halves away from zero -/

/-- The nearest integer; a half goes away from zero. -/
def nearestAway (v : ℚ) : ℤ := if v < 0 then -halfUp (-v) else halfUp v

theorem lt_halfUp (h : |v - halfUp v| = 1 / 2) : v < halfUp v := by
  have hupper : v + 1 / 2 < halfUp v + 1 := Int.lt_floor_add_one _
  by_contra hle
  rw [abs_of_nonneg (sub_nonneg.2 (not_lt.1 hle))] at h
  linarith

theorem abs_sub_nearestAway (v : ℚ) : |v - nearestAway v| = |(|v| - halfUp |v|)| := by
  unfold nearestAway
  split
  · rename_i hneg
    rw [abs_of_neg hneg, ← abs_neg]
    push_cast
    congr 1
    ring
  · rename_i hnonneg
    rw [abs_of_nonneg (not_lt.1 hnonneg)]

theorem abs_sub_nearestAway_le (v : ℚ) : |v - nearestAway v| ≤ 1 / 2 :=
  (abs_sub_nearestAway v).trans_le (abs_sub_halfUp_le _)

theorem abs_nearestAway (v : ℚ) : |nearestAway v| = halfUp |v| := by
  unfold nearestAway
  split
  · rename_i hneg
    rw [abs_neg, abs_of_neg hneg, abs_of_nonneg (halfUp_nonneg (neg_pos.2 hneg).le)]
  · rename_i hnonneg
    rw [abs_of_nonneg (not_lt.1 hnonneg), abs_of_nonneg (halfUp_nonneg (not_lt.1 hnonneg))]

theorem abs_lt_abs_nearestAway (h : |v - nearestAway v| = 1 / 2) : |v| < |(nearestAway v : ℚ)| := by
  have hmagnitude : |(nearestAway v : ℚ)| = halfUp |v| := by exact_mod_cast abs_nearestAway v
  rw [hmagnitude]
  exact lt_halfUp ((abs_sub_nearestAway v).symm.trans h)

theorem nearestAway_mono (h : v ≤ w) : nearestAway v ≤ nearestAway w := by
  unfold nearestAway
  by_cases hw : w < 0
  · rw [if_pos (h.trans_lt hw), if_pos hw]
    exact neg_le_neg (halfUp_mono (neg_le_neg h))
  · rw [if_neg hw]
    have hpositive := halfUp_nonneg (not_lt.1 hw)
    split
    · rename_i hv
      have hnegative := halfUp_nonneg (neg_pos.2 hv).le
      omega
    · exact halfUp_mono h

theorem nearestAway_intCast (n : ℤ) : nearestAway n = n := by
  unfold nearestAway
  split
  · have hneg := halfUp_intCast (-n)
    push_cast at hneg
    rw [hneg, neg_neg]
  · exact halfUp_intCast n

theorem le_nearestAway {n : ℤ} (h : n ≤ v) : n ≤ nearestAway v :=
  (nearestAway_intCast n).symm.le.trans (nearestAway_mono h)

theorem nearestAway_le {n : ℤ} (h : v ≤ n) : nearestAway v ≤ n :=
  (nearestAway_mono h).trans (nearestAway_intCast n).le

theorem Denotes.nearestInt (hx : Denotes x v) : nearestInt x = nearestAway v := by
  obtain ⟨a, ha, hv, hnearest⟩ := nearestInt_eq hx
  rw [hnearest]
  unfold signOf at hv
  split
  · rename_i hnegative
    rw [if_pos hnegative, signed] at hv
    rcases ha.eq_or_lt with rfl | hpos
    · rw [hv]
      norm_num [nearestAway, halfUp]
    · rw [nearestAway, hv, neg_neg, if_pos (neg_neg_iff_pos.2 hpos)]
      rfl
  · rename_i hpositive
    rw [if_neg hpositive, signed] at hv
    rw [nearestAway, hv, if_neg (not_lt.2 ha)]
    rfl

/-! ## Saturation -/

theorem Infinite.signOf {s : Sign} (hx : Infinite x s) : signOf x.toBits = s := by
  have hspecial : exponentField x.toBits = 2047 := by
    by_contra hfinite
    have hnumber := isFinite_iff.2 hfinite
    rw [hx.isFinite] at hnumber
    cases hnumber
  have hunpack : x.toModel.unpack = if fractionField x.toBits = 0 then
      .infinity (Binary64.signOf x.toBits) else .notANumber := unpack_special hspecial
  rw [hx] at hunpack
  split at hunpack
  · exact (UnpackedFloat.infinity.inj hunpack).symm
  · cases hunpack

theorem Infinite.saturate {s : Sign} (hx : Infinite x s) (low high : ℤ) :
    saturate low high x = match s with
      | .negative => low
      | .positive => high := by
  have hsign := hx.signOf
  unfold Binary64.signOf at hsign
  unfold Binary64.saturate
  rw [hx.isFinite, hx.isNaN]
  split at hsign
  · rename_i hnegative
    subst hsign
    rw [if_pos hnegative]
    rfl
  · rename_i hpositive
    subst hsign
    rw [if_neg hpositive]
    rfl

theorem Stands.infinite_negative {u : UnpackedFloat} (h : Stands u v) (hv : v ≤ -2 ^ (1024 : ℤ)) :
    Infinite (.ofModel (.pack u)) .negative := by
  have hpos := two_zpow_pos 1024
  cases h with
  | zero s => exact absurd hv (not_le.2 (neg_neg_iff_pos.2 hpos))
  | @finite s m e hm h =>
    cases s with
    | negative => exact h.infinite .negative hm (neg_le_neg_iff.1 hv)
    | positive =>
      have hnonneg : (0 : ℚ) ≤ m * 2 ^ e := mul_nonneg (Nat.cast_nonneg m) (two_zpow_pos e).le
      exact absurd (hnonneg.trans hv) (not_le.2 (neg_neg_iff_pos.2 hpos))

/-- Saturation does not see whether a number is still in the range of floats. -/
theorem Stands.saturate {u : UnpackedFloat} (h : Stands u v) (low high : ℤ)
    (hle : low ≤ high) (hlow : -2 ^ (1024 : ℤ) ≤ (low : ℚ)) (hhigh : (high : ℚ) ≤ 2 ^ (1024 : ℤ)) :
    saturate low high (.ofModel (.pack u)) = max low (min high (nearestAway v)) := by
  by_cases hrange : |v| < 2 ^ (1024 : ℤ)
  · have hx := h.denotes hrange
    unfold Binary64.saturate
    rw [if_pos hx.isFinite, hx.nearestInt]
  · rcases le_abs.1 (not_lt.1 hrange) with hpositive | hnegative
    · have hbeyond : high ≤ nearestAway v := le_nearestAway (hhigh.trans hpositive)
      rw [(h.infinite hpositive).saturate, min_eq_left hbeyond, max_eq_right hle]
    · have hbelow : v ≤ low := (le_neg_of_le_neg hnegative).trans hlow
      have hbeyond : nearestAway v ≤ low := nearestAway_le hbelow
      rw [(h.infinite_negative (le_neg_of_le_neg hnegative)).saturate,
        min_eq_right (hbeyond.trans hle), max_eq_left hbeyond]

/-- Within the bounds no integer is nearer to a number than what the number is saturated to. -/
theorem abs_clamped_sub_le {low high n : ℤ} (hlow : low ≤ n) (hhigh : n ≤ high) (v : ℚ) :
    |((max low (min high (nearestAway v)) : ℤ) : ℚ) - v| ≤ |(n : ℚ) - v| := by
  obtain ⟨hlower, hupper⟩ := abs_le.1 (abs_sub_nearestAway_le v)
  have hlow' : (low : ℚ) ≤ n := by exact_mod_cast hlow
  have hhigh' : (n : ℚ) ≤ high := by exact_mod_cast hhigh
  rcases lt_or_ge high (nearestAway v) with habove | hwithin
  · have hstep : (high : ℚ) + 1 ≤ nearestAway v := by exact_mod_cast habove
    rw [min_eq_left habove.le, max_eq_right (hlow.trans hhigh), abs_of_neg (by linarith),
      abs_of_neg (by linarith)]
    linarith
  rw [min_eq_right hwithin]
  rcases lt_or_ge (nearestAway v) low with hbelow | hinside
  · have hstep : (nearestAway v : ℚ) + 1 ≤ low := by exact_mod_cast hbelow
    rw [max_eq_left hbelow.le, abs_of_pos (by linarith), abs_of_pos (by linarith)]
    linarith
  rw [max_eq_right hinside]
  by_cases hsame : nearestAway v = n
  · rw [hsame]
  · have hapart : (1 : ℚ) ≤ |(nearestAway v : ℚ) - n| := by
      exact_mod_cast Int.one_le_abs (sub_ne_zero.2 hsame)
    have htriangle := abs_sub_le (nearestAway v : ℚ) v n
    have hclose := abs_sub_nearestAway_le v
    rw [abs_sub_comm] at hclose
    rw [abs_sub_comm v] at htriangle
    linarith

end Binary64

namespace FixedPoint

open Binary64

variable {f : FixedPoint} {x y : Float} {v w : ℚ}

/-! ## Codes of numbers -/

/-- The integer of the code nearest to a number. -/
def nearestCode (f : FixedPoint) (v : ℚ) : ℤ :=
  max (-2 ^ (f.bitCount - 1)) (min (2 ^ (f.bitCount - 1) - 1)
    (nearestAway (v * 2 ^ f.fracBits.toNat)))

theorem nearestCode_mono (h : v ≤ w) : f.nearestCode v ≤ f.nearestCode w := by
  have hscaled : v * 2 ^ f.fracBits.toNat ≤ w * 2 ^ f.fracBits.toNat :=
    mul_le_mul_of_nonneg_right h (by positivity)
  exact max_le_max_left _ (min_le_min_left _ (nearestAway_mono hscaled))

theorem le_nearestCode (v : ℚ) : -2 ^ (f.bitCount - 1) ≤ f.nearestCode v := le_max_left _ _

theorem nearestCode_le (v : ℚ) : f.nearestCode v ≤ 2 ^ (f.bitCount - 1) - 1 := by
  have hpos : (0 : ℤ) < 2 ^ (f.bitCount - 1) := by positivity
  exact max_le (by omega) (min_le_left _ _)

/-- A float times a power of two is not rounded, unless it leaves the range. -/
theorem rounded_mul_two_pow (hx : Denotes x v) (b : ℕ) : rounded (v * 2 ^ b) = v * 2 ^ b := by
  obtain ⟨hmantissa, hexponent, -⟩ := canonical_fields x.toBits
  have hshift (s : Float.Model.UnpackedFloat.Sign) (m : ℚ) (e : ℤ) :
      Binary64.signed s (m * 2 ^ e) * 2 ^ b = Binary64.signed s (m * 2 ^ (e + b)) := by
    rw [zpow_add₀ (by norm_num), zpow_natCast]
    cases s <;> simp only [Binary64.signed] <;> ring
  have hgrid := rounded_of_grid (n := significand x.toBits) (e := exponent x.toBits + b)
    (by rw [Nat.abs_cast]; exact_mod_cast hmantissa) (by omega)
  rw [Int.cast_natCast] at hgrid
  rw [← hx.value_eq, value, hshift, rounded_signed, hgrid]

theorem encode_eq_word (h : f.bitCount ≤ 64) (hx : Denotes x v) :
    f.encode x = f.word (f.nearestCode v) := by
  have hproduct := Stands.mul hx (denotes_scale h)
  rw [rounded_mul_two_pow hx] at hproduct
  have hpos : (0 : ℤ) < 2 ^ (f.bitCount - 1) := by positivity
  have hbound : ((2 ^ (f.bitCount - 1) : ℤ) : ℚ) ≤ 2 ^ (1024 : ℤ) := by
    rw [Int.cast_pow, Int.cast_ofNat, ← zpow_natCast]
    exact zpow_le_zpow_right₀ (by norm_num) (by omega)
  have hsaturate := hproduct.saturate (-2 ^ (f.bitCount - 1)) (2 ^ (f.bitCount - 1) - 1)
    (by omega)
    (by rw [Int.cast_neg]; exact neg_le_neg hbound)
    (by rw [Int.cast_sub, Int.cast_one]; linarith)
  unfold encode
  simp only
  rw [totalBits_of_le h, min_eq_left h]
  exact congrArg f.word hsaturate

/-! ## Values of codes -/

/-- What the codes are read as, with their sign. -/
def values (f : FixedPoint) : Set ℚ := Set.range fun raw => value (f.decode raw true)

def lowest (f : FixedPoint) : ℚ := -2 ^ (f.bitCount - 1) / 2 ^ f.fracBits.toNat

def highest (f : FixedPoint) : ℚ := (2 ^ (f.bitCount - 1) - 1) / 2 ^ f.fracBits.toNat

/-- What a number becomes when it is written and read again. -/
def quantized (f : FixedPoint) (x : Float) : Float := f.decode (f.encode x) true

theorem scale_pos (f : FixedPoint) : (0 : ℚ) < 2 ^ f.fracBits.toNat := by positivity

theorem denotes_decode_word (h : f.bitCount ≤ 53) {n : ℤ} (hlower : -2 ^ (f.bitCount - 1) ≤ n)
    (hupper : n ≤ 2 ^ (f.bitCount - 1) - 1) :
    Denotes (f.decode (f.word n) true) (n / 2 ^ f.fracBits.toNat) := by
  have hdecode := denotes_decode h (f.word n) true
  rwa [numerator_word (h.trans (by norm_num)) hlower (by omega)] at hdecode

theorem mem_values (h : f.bitCount ≤ 53) :
    v ∈ f.values ↔ ∃ n : ℤ, -2 ^ (f.bitCount - 1) ≤ n ∧ n ≤ 2 ^ (f.bitCount - 1) - 1 ∧
      (n : ℚ) / 2 ^ f.fracBits.toNat = v := by
  have hwide : f.bitCount ≤ 64 := h.trans (by norm_num)
  constructor
  · rintro ⟨raw, rfl⟩
    have hupper := numerator_lt hwide raw
    exact ⟨f.numerator raw true, le_numerator hwide raw, by omega,
      (denotes_decode h raw true).value_eq.symm⟩
  · rintro ⟨n, hlower, hupper, rfl⟩
    exact ⟨f.word n, (denotes_decode_word h hlower hupper).value_eq⟩

theorem isLeast_lowest (h : f.bitCount ≤ 53) : IsLeast f.values f.lowest := by
  have hpos : (0 : ℤ) < 2 ^ (f.bitCount - 1) := by positivity
  constructor
  · rw [mem_values h]
    exact ⟨-2 ^ (f.bitCount - 1), le_refl _, by omega, by push_cast; rfl⟩
  · intro v hv
    obtain ⟨n, hlower, -, rfl⟩ := (mem_values h).1 hv
    apply div_le_div_of_nonneg_right _ f.scale_pos.le
    exact_mod_cast hlower

theorem isGreatest_highest (h : f.bitCount ≤ 53) : IsGreatest f.values f.highest := by
  have hpos : (0 : ℤ) < 2 ^ (f.bitCount - 1) := by positivity
  constructor
  · rw [mem_values h]
    exact ⟨2 ^ (f.bitCount - 1) - 1, by omega, le_refl _, by push_cast; rfl⟩
  · intro v hv
    obtain ⟨n, -, hupper, rfl⟩ := (mem_values h).1 hv
    apply div_le_div_of_nonneg_right _ f.scale_pos.le
    exact_mod_cast hupper

/-! ## There and back -/

theorem denotes_quantized (h : f.bitCount ≤ 53) (hx : Denotes x v) :
    Denotes (f.quantized x) (f.nearestCode v / 2 ^ f.fracBits.toNat) := by
  unfold quantized
  rw [encode_eq_word (h.trans (by norm_num)) hx]
  exact denotes_decode_word h (le_nearestCode v) (nearestCode_le v)

theorem abs_div_scale_sub (n : ℤ) (v : ℚ) :
    |(n : ℚ) / 2 ^ f.fracBits.toNat - v| =
      |(n : ℚ) - v * 2 ^ f.fracBits.toNat| / 2 ^ f.fracBits.toNat := by
  have hdistance : (n : ℚ) / 2 ^ f.fracBits.toNat - v =
      (n - v * 2 ^ f.fracBits.toNat) / 2 ^ f.fracBits.toNat := by
    rw [sub_div, mul_div_cancel_right₀ _ f.scale_pos.ne']
  rw [hdistance, abs_div, abs_of_pos f.scale_pos]

theorem quantized_minimizes (h : f.bitCount ≤ 53) (v : ℚ) (hw : w ∈ f.values) :
    |(f.nearestCode v : ℚ) / 2 ^ f.fracBits.toNat - v| ≤ |w - v| := by
  obtain ⟨n, hlower, hupper, rfl⟩ := (mem_values h).1 hw
  rw [abs_div_scale_sub, abs_div_scale_sub]
  exact div_le_div_of_nonneg_right (abs_clamped_sub_le hlower hupper _) f.scale_pos.le

/-- Between the ends of the range nothing is saturated. -/
theorem nearestCode_of_mem (hlower : f.lowest ≤ v) (hupper : v ≤ f.highest) :
    f.nearestCode v = nearestAway (v * 2 ^ f.fracBits.toNat) := by
  have hlow : ((-2 ^ (f.bitCount - 1) : ℤ) : ℚ) ≤ v * 2 ^ f.fracBits.toNat := by
    push_cast
    exact (div_le_iff₀ f.scale_pos).1 hlower
  have hhigh : v * 2 ^ f.fracBits.toNat ≤ ((2 ^ (f.bitCount - 1) - 1 : ℤ) : ℚ) := by
    push_cast
    exact (le_div_iff₀ f.scale_pos).1 hupper
  unfold nearestCode
  rw [min_eq_right (nearestAway_le hhigh), max_eq_right (le_nearestAway hlow)]

theorem abs_quantized_sub_le (hlower : f.lowest ≤ v) (hupper : v ≤ f.highest) :
    |(f.nearestCode v : ℚ) / 2 ^ f.fracBits.toNat - v| ≤ 1 / 2 ^ (f.fracBits.toNat + 1) := by
  have hclose := abs_sub_nearestAway_le (v * 2 ^ f.fracBits.toNat)
  rw [abs_sub_comm] at hclose
  rw [nearestCode_of_mem hlower hupper, abs_div_scale_sub, pow_succ', ← div_div]
  exact div_le_div_of_nonneg_right hclose f.scale_pos.le

theorem abs_lt_abs_quantized (hlower : f.lowest ≤ v) (hupper : v ≤ f.highest)
    (htie : |(f.nearestCode v : ℚ) / 2 ^ f.fracBits.toNat - v| = 1 / 2 ^ (f.fracBits.toNat + 1)) :
    |v| < |(f.nearestCode v : ℚ) / 2 ^ f.fracBits.toNat| := by
  rw [nearestCode_of_mem hlower hupper] at htie ⊢
  rw [abs_div_scale_sub, pow_succ', ← div_div, div_left_inj' f.scale_pos.ne', abs_sub_comm] at htie
  have haway := abs_lt_abs_nearestAway htie
  rw [abs_mul, abs_of_pos f.scale_pos] at haway
  rwa [abs_div, abs_of_pos f.scale_pos, lt_div_iff₀ f.scale_pos]

theorem quantized_of_lt (hv : v < f.lowest) :
    (f.nearestCode v : ℚ) / 2 ^ f.fracBits.toNat = f.lowest := by
  have hscaled : v * 2 ^ f.fracBits.toNat ≤ ((-2 ^ (f.bitCount - 1) : ℤ) : ℚ) := by
    push_cast
    exact ((lt_div_iff₀ f.scale_pos).1 hv).le
  have hcode : f.nearestCode v = -2 ^ (f.bitCount - 1) :=
    max_eq_left ((min_le_right _ _).trans (nearestAway_le hscaled))
  rw [hcode, lowest]
  push_cast
  rfl

theorem quantized_of_gt (hv : f.highest < v) :
    (f.nearestCode v : ℚ) / 2 ^ f.fracBits.toNat = f.highest := by
  have hscaled : ((2 ^ (f.bitCount - 1) - 1 : ℤ) : ℚ) ≤ v * 2 ^ f.fracBits.toNat := by
    push_cast
    exact ((div_lt_iff₀ f.scale_pos).1 hv).le
  have hpos : (0 : ℤ) < 2 ^ (f.bitCount - 1) := by positivity
  have hcode : f.nearestCode v = 2 ^ (f.bitCount - 1) - 1 := by
    unfold nearestCode
    rw [min_eq_left (le_nearestAway hscaled), max_eq_right (by omega)]
  rw [hcode, highest]
  push_cast
  rfl

theorem quantized_le_quantized (h : f.bitCount ≤ 53) (hx : Denotes x v) (hy : Denotes y w)
    (hle : x ≤ y) : f.quantized x ≤ f.quantized y := by
  rw [(denotes_quantized h hx).le_iff (denotes_quantized h hy)]
  apply div_le_div_of_nonneg_right _ f.scale_pos.le
  exact_mod_cast nearestCode_mono ((hx.le_iff hy).1 hle)

theorem encode_quantized (h : f.bitCount ≤ 53) (x : Float) :
    f.encode (f.quantized x) = f.encode x := by
  have hbits := totalBits_of_le (h.trans (by norm_num))
  have hcode := toNat_encode_lt (hbits.trans_le (h.trans (by norm_num))) x
  rw [hbits] at hcode
  exact encode_decode h hcode

/-- Whatever number is written, the value that is read again is the nearest one that has a code. In
the range it is at most half a step away, and of two values at that distance it is the one farther
from zero; from beyond the range it is the nearer end. The order of numbers is kept, and a value that
was read is written with the same code again. -/
theorem quantized_nearest (h : f.bitCount ≤ 53) (hx : isFinite x.toBits = true) :
    IsLeast f.values f.lowest ∧ IsGreatest f.values f.highest ∧
    isFinite (f.quantized x).toBits = true ∧ value (f.quantized x) ∈ f.values ∧
    (∀ w ∈ f.values, |value (f.quantized x) - value x| ≤ |w - value x|) ∧
    (f.lowest ≤ value x → value x ≤ f.highest →
      |value (f.quantized x) - value x| ≤ 1 / 2 ^ (f.fracBits.toNat + 1) ∧
      (|value (f.quantized x) - value x| = 1 / 2 ^ (f.fracBits.toNat + 1) →
        |value x| < |value (f.quantized x)|)) ∧
    (value x < f.lowest → value (f.quantized x) = f.lowest) ∧
    (f.highest < value x → value (f.quantized x) = f.highest) ∧
    (∀ y, isFinite y.toBits = true → x ≤ y → f.quantized x ≤ f.quantized y) ∧
    f.encode (f.quantized x) = f.encode x := by
  have hvalue := denotes_value hx
  have hquantized := denotes_quantized h hvalue
  rw [hquantized.value_eq]
  refine ⟨isLeast_lowest h, isGreatest_highest h, hquantized.isFinite, ?_,
    fun w hw => quantized_minimizes h _ hw, fun hlower hupper => ?_, quantized_of_lt,
    quantized_of_gt, fun y hy hle => quantized_le_quantized h hvalue (denotes_value hy) hle,
    encode_quantized h x⟩
  · exact (mem_values h).2 ⟨_, le_nearestCode _, nearestCode_le _, rfl⟩
  · exact ⟨abs_quantized_sub_le hlower hupper, abs_lt_abs_quantized hlower hupper⟩

/-- Three halves of a step below zero. -/
def negativeTie : Float := .ofBits 0xBF18000000000000

/-- A number that the scale takes beyond all floats. -/
def beyondScale : Float := .ofBits 0x7FE0000000000000

theorem quantized_nearest_tie_and_infinity :
    q1_14.bitCount ≤ 53 ∧ isFinite negativeTie.toBits = true ∧ isFinite beyondScale.toBits = true ∧
    |value (q1_14.quantized negativeTie) - value negativeTie| ≤ 1 / 2 ^ 15 ∧
    isFinite (beyondScale * q1_14.scale).toBits = false ∧
    value (q1_14.quantized beyondScale) = q1_14.highest ∧
    q1_14.quantized negativeTie ≤ q1_14.quantized beyondScale := by
  have hbits : q1_14.bitCount ≤ 53 := by decide
  have htie : isFinite negativeTie.toBits = true := by decide +kernel
  have hbeyond : isFinite beyondScale.toBits = true := by decide +kernel
  obtain ⟨-, -, -, -, -, hwithin, -, -, horder, -⟩ := quantized_nearest hbits htie
  obtain ⟨-, -, -, -, -, -, -, habove, -⟩ := quantized_nearest hbits hbeyond
  exact ⟨hbits, htie, hbeyond, (hwithin (by decide +kernel) (by decide +kernel)).1,
    by decide +kernel, habove (by decide +kernel), horder _ hbeyond (by decide +kernel)⟩

end FixedPoint

end CableCapture
