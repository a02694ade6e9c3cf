/-!
# Words of byte strings

Unsigned numbers written in a fixed number of bytes, in both byte orders. The little-endian order
recurses on the bytes; the big-endian order is its reverse. Writing and reading undo each other.
-/

namespace CableCapture

-- Powers are those of the core library, whatever else is imported.
attribute [local instance (high)] instPowNat

-- ---------------------------------------------------------------------------
-- Least significant byte first
-- ---------------------------------------------------------------------------

namespace LittleEndian

/-- The number that a byte string spells. -/
def toNat : List UInt8 → Nat
  | [] => 0
  | b :: rest => b.toNat + 256 * toNat rest

/-- The `width` low bytes of a number. -/
def ofNat : (width n : Nat) → List UInt8
  | 0, _ => []
  | width + 1, n => UInt8.ofNat n :: ofNat width (n / 256)

@[simp] theorem length_ofNat (width n : Nat) : (ofNat width n).length = width := by
  induction width generalizing n with
  | zero => rfl
  | succ width ih => simp [ofNat, ih]

theorem toNat_lt (bs : List UInt8) : toNat bs < 256 ^ bs.length := by
  induction bs with
  | nil => simp [toNat]
  | cons b rest ih =>
    have hb := b.toNat_lt
    simp only [toNat, List.length_cons, Nat.pow_succ]
    omega

theorem toNat_ofNat (width n : Nat) : toNat (ofNat width n) = n % 256 ^ width := by
  induction width generalizing n with
  | zero => simp [ofNat, toNat, Nat.mod_one]
  | succ width ih =>
    have hb : (UInt8.ofNat n).toNat = n % 256 := UInt8.toNat_ofNat'
    have hpow : 256 ^ (width + 1) = 256 * 256 ^ width := Nat.pow_succ'
    rw [ofNat, toNat, ih, hb, hpow, Nat.mod_mul]

theorem ofNat_toNat (bs : List UInt8) : ofNat bs.length (toNat bs) = bs := by
  induction bs with
  | nil => rfl
  | cons b rest ih =>
    have hb := b.toNat_lt
    have hdiv : (b.toNat + 256 * toNat rest) / 256 = toNat rest := by omega
    have hmod : (b.toNat + 256 * toNat rest) % 256 = b.toNat := by omega
    simp only [toNat, List.length_cons, ofNat, hdiv, ih, List.cons.injEq, and_true]
    exact UInt8.toNat_inj.mp hmod

end LittleEndian

-- ---------------------------------------------------------------------------
-- Most significant byte first
-- ---------------------------------------------------------------------------

namespace BigEndian

/-- The number that a byte string spells. -/
def toNat (bs : List UInt8) : Nat :=
  LittleEndian.toNat bs.reverse

/-- The `width` low bytes of a number. -/
def ofNat (width n : Nat) : List UInt8 :=
  (LittleEndian.ofNat width n).reverse

@[simp] theorem length_ofNat (width n : Nat) : (ofNat width n).length = width := by
  simp [ofNat]

theorem toNat_lt (bs : List UInt8) : toNat bs < 256 ^ bs.length := by
  simpa [toNat] using LittleEndian.toNat_lt bs.reverse

theorem toNat_ofNat (width n : Nat) : toNat (ofNat width n) = n % 256 ^ width := by
  simp [toNat, ofNat, LittleEndian.toNat_ofNat]

theorem ofNat_toNat (bs : List UInt8) : ofNat bs.length (toNat bs) = bs := by
  have h := LittleEndian.ofNat_toNat bs.reverse
  rw [List.length_reverse] at h
  simp [toNat, ofNat, h]

def toUInt16 (bs : List UInt8) : UInt16 := .ofNat (toNat bs)

def toUInt32 (bs : List UInt8) : UInt32 := .ofNat (toNat bs)

/-- Two's complement reading of two bytes. -/
def toInt16 (bs : List UInt8) : Int16 := (toUInt16 bs).toInt16

def ofUInt16 (n : UInt16) : List UInt8 := ofNat 2 n.toNat

def ofUInt32 (n : UInt32) : List UInt8 := ofNat 4 n.toNat

def ofInt16 (n : Int16) : List UInt8 := ofUInt16 n.toUInt16

@[simp] theorem length_ofUInt16 (n : UInt16) : (ofUInt16 n).length = 2 := length_ofNat ..

@[simp] theorem length_ofUInt32 (n : UInt32) : (ofUInt32 n).length = 4 := length_ofNat ..

@[simp] theorem toUInt16_ofUInt16 (n : UInt16) : toUInt16 (ofUInt16 n) = n := by
  have h := n.toNat_lt
  rw [toUInt16, ofUInt16, toNat_ofNat, Nat.mod_eq_of_lt (by omega), UInt16.ofNat_toNat]

@[simp] theorem toUInt32_ofUInt32 (n : UInt32) : toUInt32 (ofUInt32 n) = n := by
  have h := n.toNat_lt
  rw [toUInt32, ofUInt32, toNat_ofNat, Nat.mod_eq_of_lt (by omega), UInt32.ofNat_toNat]

theorem ofUInt16_toUInt16 {bs : List UInt8} (h : bs.length = 2) : ofUInt16 (toUInt16 bs) = bs := by
  have hlt := toNat_lt bs
  rw [h] at hlt
  rw [ofUInt16, toUInt16, UInt16.toNat_ofNat_of_lt' hlt, ← h, ofNat_toNat]

theorem ofUInt32_toUInt32 {bs : List UInt8} (h : bs.length = 4) : ofUInt32 (toUInt32 bs) = bs := by
  have hlt := toNat_lt bs
  rw [h] at hlt
  rw [ofUInt32, toUInt32, UInt32.toNat_ofNat_of_lt' hlt, ← h, ofNat_toNat]

theorem ofInt16_toInt16 {bs : List UInt8} (h : bs.length = 2) : ofInt16 (toInt16 bs) = bs := by
  simp [ofInt16, toInt16, ofUInt16_toUInt16 h]

end BigEndian

end CableCapture
