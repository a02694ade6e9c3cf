/-!
# Hexadecimal digits

A byte is written as two lower-case digits; digits of either case are read.
-/

namespace CableCapture.Hex

/-- The two digits of a byte, the high one first. -/
def ofByte (b : UInt8) : List Char :=
  [Nat.digitChar (b.toNat / 16), Nat.digitChar (b.toNat % 16)]

/-- The value of an ASCII digit of either case. -/
def digit? (c : Char) : Option Nat :=
  if '0' ≤ c ∧ c ≤ '9' then some (c.toNat - '0'.toNat)
  else if 'a' ≤ c ∧ c ≤ 'f' then some (c.toNat - 'a'.toNat + 10)
  else if 'A' ≤ c ∧ c ≤ 'F' then some (c.toNat - 'A'.toNat + 10)
  else none

/-- The bytes that a run of digit pairs spells. -/
def toBytes? : List Char → Option (List UInt8)
  | [] => some []
  | [_] => none
  | high :: low :: rest => do
    let h ← digit? high
    let l ← digit? low
    let bytes ← toBytes? rest
    return UInt8.ofNat (16 * h + l) :: bytes

theorem digit?_digitChar {n : Nat} (h : n < 16) : digit? (Nat.digitChar n) = some n := by
  decide +revert

theorem toBytes?_ofByte_append (b : UInt8) (cs : List Char) :
    toBytes? (ofByte b ++ cs) = (toBytes? cs).map (b :: ·) := by
  have hb := b.toNat_lt
  have hhigh := digit?_digitChar (n := b.toNat / 16) (by omega)
  have hlow := digit?_digitChar (n := b.toNat % 16) (by omega)
  have hval : UInt8.ofNat (16 * (b.toNat / 16) + b.toNat % 16) = b := by
    rw [show 16 * (b.toNat / 16) + b.toNat % 16 = b.toNat by omega, UInt8.ofNat_toNat]
  simp only [ofByte, List.cons_append, List.nil_append, toBytes?, hhigh, hlow, Option.pure_def,
    Option.bind_eq_bind, Option.bind_some, hval]
  cases toBytes? cs <;> rfl

end CableCapture.Hex
