import CableCapture.Numeric.FixedPoint
import Mathlib.Tactic.Ring

/-!
# The bits of a format

The number of bits of a format is added up in a word of 32 bits. Where the word is too short for the
sum, checked addition has no value, and unchecked addition drops the two to the 32nd. Then the format
passes for one of few bits, be it none at all.
-/

namespace CableCapture

namespace Checked

/-- A sum has a value if a word of 32 bits holds it. -/
def add32? (x y : UInt32) : Option UInt32 :=
  if x.toNat + y.toNat < 2 ^ 32 then some (x + y) else none

variable {x y : UInt32}

theorem add32?_of_lt (h : x.toNat + y.toNat < 2 ^ 32) : add32? x y = some (x + y) := if_pos h

theorem add32?_eq_none (h : 2 ^ 32 ≤ x.toNat + y.toNat) : add32? x y = none := if_neg (not_lt.2 h)

end Checked

namespace FixedPoint

open Checked

variable (f : FixedPoint)

/-- The number of bits, whatever word it fits. -/
def bitCount : ℕ := f.intBits.toNat + f.fracBits.toNat + 1

/-- The number of bits by checked addition. -/
def total? : Option UInt32 := do
  add32? (← add32? f.intBits f.fracBits) 1

variable {f} {width : ℕ}

theorem bitCount_pos : 0 < f.bitCount := Nat.succ_pos _

theorem totalBits_eq_mod : f.totalBits = f.bitCount % 2 ^ 32 := by
  unfold totalBits bitCount
  rw [UInt32.toNat_add, UInt32.toNat_add, Nat.mod_add_mod]
  rfl

theorem totalBits_of_lt (h : f.bitCount < 2 ^ 32) : f.totalBits = f.bitCount := by
  rw [totalBits_eq_mod, Nat.mod_eq_of_lt h]

theorem totalBits_of_le (h : f.bitCount ≤ 64) : f.totalBits = f.bitCount :=
  totalBits_of_lt (h.trans_lt (by decide))

/-- Two summands and the sign bit go past the end of a word once at most. -/
theorem totalBits_of_ge (h : 2 ^ 32 ≤ f.bitCount) : f.bitCount = 2 ^ 32 + f.totalBits := by
  have hint := f.intBits.toNat_lt
  have hfrac := f.fracBits.toNat_lt
  rw [totalBits_eq_mod]
  unfold bitCount at *
  omega

/-- Checked addition counts the bits wherever the word is long enough for their number. -/
theorem total?_eq :
    f.total? = if f.bitCount < 2 ^ 32 then some (f.intBits + f.fracBits + 1) else none := by
  unfold total?
  by_cases hsum : f.intBits.toNat + f.fracBits.toNat < 2 ^ 32
  · have hbits : (f.intBits + f.fracBits).toNat = f.intBits.toNat + f.fracBits.toNat := by
      rw [UInt32.toNat_add, Nat.mod_eq_of_lt hsum]
    rw [add32?_of_lt hsum, Option.bind_eq_bind, Option.bind_some, add32?, hbits]
    rfl
  · have hcount : ¬f.bitCount < 2 ^ 32 := fun h => hsum ((Nat.lt_succ_self _).trans h)
    rw [add32?_eq_none (not_lt.1 hsum), if_neg hcount]
    rfl

theorem exists_total? (h : f.bitCount < 2 ^ 32) :
    ∃ total, f.total? = some total ∧ total.toNat = f.bitCount :=
  ⟨f.intBits + f.fracBits + 1, by rw [total?_eq, if_pos h], totalBits_of_lt h⟩

theorem total?_eq_none (h : 2 ^ 32 ≤ f.bitCount) : f.total? = none := by
  rw [total?_eq, if_neg (not_lt.2 h)]

/-! ## Formats of whole bytes -/

theorem byteWidth_eq_ok :
    f.byteWidth = .ok width ↔ f.totalBits = 8 * width ∧ f.totalBits ≤ 64 := by
  unfold byteWidth
  split
  · rw [Except.ok.injEq]
    omega
  · simp only [reduceCtorEq, false_iff]
    omega

/-- The bits are those of so many bytes. -/
def FillsBytes (f : FixedPoint) (width : ℕ) : Prop := f.bitCount = 8 * width ∧ f.bitCount ≤ 64

instance : Decidable (f.FillsBytes width) := inferInstanceAs (Decidable (_ ∧ _))

/-- Counted without loss, the bits of an accepted format fill its bytes. -/
theorem byteWidth_eq_ok_iff (h : f.bitCount < 2 ^ 32) :
    f.byteWidth = .ok width ↔ f.FillsBytes width := by
  rw [byteWidth_eq_ok, totalBits_of_lt h, FillsBytes]

theorem bitCount_of_byteWidth (h : 2 ^ 32 ≤ f.bitCount) (hwidth : f.byteWidth = .ok width) :
    f.bitCount = 2 ^ 32 + 8 * width := by
  rw [totalBits_of_ge h, (byteWidth_eq_ok.1 hwidth).1]

theorem FillsBytes.byteWidth (h : f.FillsBytes width) : f.byteWidth = .ok width :=
  (byteWidth_eq_ok_iff (h.2.trans_lt (by decide))).2 h

theorem FillsBytes.width_pos (h : f.FillsBytes width) : 0 < width := by
  have hpos := bitCount_pos (f := f)
  have hbits := h.1
  omega

end FixedPoint

end CableCapture
