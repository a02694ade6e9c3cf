import CableCapture.MacAddress

/-!
# The order of addresses

Digits are ordered as the numbers that they stand for and all addresses are of one width, so the
texts of addresses are ordered as their octets are. The comparison of addresses is the same order.
-/

namespace CableCapture

/-! ## Bytes as pairs of digits -/

namespace Hex

theorem digitChar_lt_iff :
    ∀ m < 16, ∀ n < 16, Nat.digitChar m < Nat.digitChar n ↔ m < n := by
  decide

theorem digitChar_eq_iff :
    ∀ m < 16, ∀ n < 16, Nat.digitChar m = Nat.digitChar n ↔ m = n := by
  decide

/-- Texts that start with a byte are ordered by that byte first. -/
theorem ofByte_append_lt_iff (a b : UInt8) (xs ys : List Char) :
    ofByte a ++ xs < ofByte b ++ ys ↔ a < b ∨ a = b ∧ xs < ys := by
  have ha := a.toNat_lt
  have hb := b.toNat_lt
  have hahigh : a.toNat / 16 < 16 := by omega
  have hbhigh : b.toNat / 16 < 16 := by omega
  have halow : a.toNat % 16 < 16 := Nat.mod_lt _ (by decide)
  have hblow : b.toNat % 16 < 16 := Nat.mod_lt _ (by decide)
  unfold ofByte
  simp only [List.cons_append, List.nil_append, List.cons_lt_cons_iff,
    digitChar_lt_iff _ hahigh _ hbhigh, digitChar_lt_iff _ halow _ hblow,
    digitChar_eq_iff _ hahigh _ hbhigh, digitChar_eq_iff _ halow _ hblow]
  rw [UInt8.lt_iff_toNat_lt, ← UInt8.toNat_inj]
  constructor
  · rintro (hhigh | ⟨hhigh, hlow | ⟨hlow, hrest⟩⟩)
    · exact .inl (by omega)
    · exact .inl (by omega)
    · exact .inr ⟨by omega, hrest⟩
  · rintro (hlt | ⟨heq, hrest⟩)
    · by_cases hhigh : a.toNat / 16 < b.toNat / 16
      · exact .inl hhigh
      · exact .inr ⟨by omega, .inl (by omega)⟩
    · exact .inr ⟨by rw [heq], .inr ⟨by rw [heq], hrest⟩⟩

end Hex

namespace MacAddress

/-! ## Texts -/

/-- The pairs of digits that follow the first one, each behind its colon. -/
def textBehind (octets : List UInt8) : List Char :=
  octets.flatMap fun octet => ':' :: Hex.ofByte octet

theorem intercalate_ofByte (octet : UInt8) (rest : List UInt8) :
    [':'].intercalate ((octet :: rest).map Hex.ofByte) = Hex.ofByte octet ++ textBehind rest := by
  induction rest generalizing octet with
  | nil => simp [textBehind]
  | cons next rest ih =>
    have hnext := ih next
    rw [List.map_cons] at hnext
    rw [List.map_cons, List.map_cons, List.intercalate_cons_cons, hnext]
    simp [textBehind]

theorem textBehind_lt_iff {xs ys : List UInt8} (h : xs.length = ys.length) :
    textBehind xs < textBehind ys ↔ xs < ys := by
  induction xs generalizing ys with
  | nil =>
    obtain rfl := List.length_eq_zero_iff.1 h.symm
    exact iff_of_false (List.lt_irrefl _) (List.lt_irrefl _)
  | cons x xs ih =>
    cases ys with
    | nil => cases h
    | cons y ys =>
      have hcons : ∀ octet rest,
          textBehind (octet :: rest) = ':' :: (Hex.ofByte octet ++ textBehind rest) :=
        fun _ _ => rfl
      rw [hcons, hcons, List.cons_lt_cons_iff, Hex.ofByte_append_lt_iff, ih (Nat.succ.inj h),
        List.cons_lt_cons_iff, or_iff_right (Char.lt_irrefl ':'), and_iff_right rfl]

theorem display_lt_iff {a b : MacAddress} : a.display < b.display ↔ a.octets < b.octets := by
  obtain ⟨x, xs, ha⟩ := List.exists_cons_of_length_eq_add_one a.length_octets
  obtain ⟨y, ys, hb⟩ := List.exists_cons_of_length_eq_add_one b.length_octets
  have hlen : xs.length = ys.length := by
    have hsame := a.length_octets.trans b.length_octets.symm
    rw [ha, hb] at hsame
    exact Nat.succ.inj hsame
  have hatext : a.display.toList = Hex.ofByte x ++ textBehind xs := by
    rw [display, String.toList_ofList, ha, intercalate_ofByte]
  have hbtext : b.display.toList = Hex.ofByte y ++ textBehind ys := by
    rw [display, String.toList_ofList, hb, intercalate_ofByte]
  calc a.display < b.display
    _ ↔ a.display.toList < b.display.toList := Iff.rfl
    _ ↔ x < y ∨ x = y ∧ xs < ys := by
      rw [hatext, hbtext, Hex.ofByte_append_lt_iff, textBehind_lt_iff hlen]
    _ ↔ a.octets < b.octets := by rw [ha, hb, List.cons_lt_cons_iff]

/-- Addresses are ordered as their texts. -/
theorem display_le_iff {a b : MacAddress} : a.display ≤ b.display ↔ a.octets ≤ b.octets := by
  rw [← String.not_lt, display_lt_iff, List.not_lt]

/-! ## Comparison -/

theorem compareLex_eq_lt {xs ys : List UInt8} : List.compareLex compare xs ys = .lt ↔ xs < ys := by
  induction xs generalizing ys with
  | nil =>
    cases ys with
    | nil => simp [List.compareLex_nil_nil]
    | cons y ys => simp [List.compareLex_nil_cons]
  | cons x xs ih =>
    cases ys with
    | nil => simp [List.compareLex_cons_nil]
    | cons y ys =>
      rw [List.compareLex_cons_cons, Ordering.then_eq_lt, Std.compare_eq_lt, ih,
        Std.LawfulEqOrd.compare_eq_iff_eq, List.cons_lt_cons_iff]

theorem compare_eq_lt {a b : MacAddress} : compare a b = .lt ↔ a.octets < b.octets :=
  compareLex_eq_lt

end MacAddress

end CableCapture
