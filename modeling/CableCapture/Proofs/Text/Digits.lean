import CableCapture.MacAddress
import CableCapture.Proofs.Text.Tags
import Mathlib.Data.List.TakeWhile

/-!
# Digits and blanks in a text

The bytes that a run of digits spells are those whose digits it is in lower case. Taking blanks off
both ends leaves a text without a blank at either end, and such a text is what is found between any
blanks. Neither depends on the case of letters.
-/

namespace CableCapture

-- ---------------------------------------------------------------------------
-- Letter case
-- ---------------------------------------------------------------------------

theorem char_le_iff {a b : Char} : a ≤ b ↔ a.toNat ≤ b.toNat := UInt32.le_iff_toNat_le

/-- Only the capital letters of ASCII have another lower case. -/
theorem toLower_of_not_capital {c : Char} (h : ¬('A' ≤ c ∧ c ≤ 'Z')) : c.toLower = c := dif_neg h

theorem toNat_toLower_of_capital {c : Char} (h : 'A' ≤ c ∧ c ≤ 'Z') :
    c.toLower.toNat = c.toNat + 32 := by
  have hupper : c.val.toNat ≤ 90 := char_le_iff.1 h.2
  have hcase : c.toLower.val = c.val + 32 := congrArg Char.val (dif_pos h)
  change c.toLower.val.toNat = c.val.toNat + 32
  rw [hcase, UInt32.toNat_add]
  change (c.val.toNat + 32) % 2 ^ 32 = c.val.toNat + 32
  omega

theorem toLower_toLower (c : Char) : c.toLower.toLower = c.toLower := by
  by_cases h : 'A' ≤ c ∧ c ≤ 'Z'
  · apply toLower_of_not_capital
    rintro ⟨-, hupper⟩
    rw [char_le_iff, toNat_toLower_of_capital h] at hupper
    have hlower := char_le_iff.1 h.1
    change 65 ≤ c.toNat at hlower
    change c.toNat + 32 ≤ 90 at hupper
    omega
  · rw [toLower_of_not_capital h]
    exact toLower_of_not_capital h

theorem isBlank_toLower (c : Char) : isBlank c.toLower = isBlank c := by
  by_cases h : 'A' ≤ c ∧ c ≤ 'Z'
  · have hlower := toNat_toLower_of_capital h
    rw [char_le_iff, char_le_iff] at h
    change 65 ≤ c.toNat ∧ c.toNat ≤ 90 at h
    rw [Bool.eq_iff_iff]
    simp only [isBlank, hlower, Bool.or_eq_true, Bool.and_eq_true, decide_eq_true_eq, beq_iff_eq]
    omega
  · rw [toLower_of_not_capital h]

-- ---------------------------------------------------------------------------
-- Digits
-- ---------------------------------------------------------------------------

namespace Hex

/-- An ASCII digit of base sixteen, of either case. -/
def IsDigit (c : Char) : Prop :=
  ('0' ≤ c ∧ c ≤ '9') ∨ ('a' ≤ c ∧ c ≤ 'f') ∨ ('A' ≤ c ∧ c ≤ 'F')

instance (c : Char) : Decidable (IsDigit c) := inferInstanceAs (Decidable (_ ∨ _))

variable {c : Char} {cs : List Char} {n : ℕ} {bytes : List UInt8}

theorem isSome_digit? : (digit? c).isSome ↔ IsDigit c := by
  unfold digit? IsDigit
  split
  · simp_all
  · split
    · simp_all
    · split <;> simp_all

theorem isDigit_iff : IsDigit c ↔
    (48 ≤ c.toNat ∧ c.toNat ≤ 57) ∨ (97 ≤ c.toNat ∧ c.toNat ≤ 102) ∨
      (65 ≤ c.toNat ∧ c.toNat ≤ 70) := by
  unfold IsDigit
  simp only [char_le_iff]
  rfl

theorem IsDigit.toNat_lt (h : IsDigit c) : c.toNat < 128 := by
  rw [isDigit_iff] at h
  omega

theorem IsDigit.not_isBlank (h : IsDigit c) : isBlank c = false := by
  rw [isDigit_iff] at h
  rw [Bool.eq_false_iff, ne_eq]
  simp only [isBlank, Bool.or_eq_true, Bool.and_eq_true, decide_eq_true_eq, beq_iff_eq]
  omega

/-- The values of the characters of ASCII. -/
theorem digit?_ofNat : ∀ k < 128, digit? (Char.ofNat k) =
    (List.range 16).find? fun n => Nat.digitChar n = (Char.ofNat k).toLower := by
  decide +kernel

theorem toNat_digitChar_lt : ∀ m < 16, (Nat.digitChar m).toNat < 128 := by
  decide

theorem digitChar_inj : ∀ m < 16, ∀ n < 16, Nat.digitChar m = Nat.digitChar n → m = n := by
  decide

/-- A digit is in lower case the one that its value is written as. -/
theorem digit?_eq_some : digit? c = some n ↔ n < 16 ∧ Nat.digitChar n = c.toLower := by
  by_cases hc : c.toNat < 128
  · have hvalue := digit?_ofNat c.toNat hc
    rw [Char.ofNat_toNat] at hvalue
    rw [hvalue]
    constructor
    · intro h
      exact ⟨List.mem_range.1 (List.mem_of_find?_eq_some h), by simpa using List.find?_some h⟩
    · rintro ⟨hn, hdigit⟩
      have hfound : ((List.range 16).find? fun m => Nat.digitChar m = c.toLower).isSome :=
        List.find?_isSome.2 ⟨n, List.mem_range.2 hn, by simpa using hdigit⟩
      obtain ⟨m, hm⟩ := Option.isSome_iff_exists.1 hfound
      have hsame : Nat.digitChar m = c.toLower := by simpa using List.find?_some hm
      rw [hm, digitChar_inj m (List.mem_range.1 (List.mem_of_find?_eq_some hm)) n hn
        (hsame.trans hdigit.symm)]
  · have hnone : digit? c = none := by
      rw [← Option.not_isSome_iff_eq_none, isSome_digit?]
      exact fun h => hc h.toNat_lt
    have hlower : c.toLower = c := by
      apply toLower_of_not_capital
      rintro ⟨-, hupper⟩
      exact hc ((char_le_iff.1 hupper).trans_lt (by decide))
    rw [hnone, hlower]
    simp only [reduceCtorEq, false_iff, not_and]
    rintro hn rfl
    exact hc (toNat_digitChar_lt n hn)

theorem digit?_toLower : digit? c.toLower = digit? c := by
  apply Option.ext
  intro n
  rw [digit?_eq_some, digit?_eq_some, toLower_toLower]

theorem isDigit_toLower : IsDigit c.toLower ↔ IsDigit c := by
  rw [← isSome_digit?, ← isSome_digit?, digit?_toLower]

/-! ## Runs of digits -/

theorem toBytes?_map_toLower (cs : List Char) : toBytes? (cs.map Char.toLower) = toBytes? cs := by
  induction cs using toBytes?.induct with
  | case1 => rfl
  | case2 c => rfl
  | case3 high low rest ih =>
    simp only [List.map_cons, toBytes?, digit?_toLower, ih]

theorem toBytes?_flatMap_ofByte (bytes : List UInt8) :
    toBytes? (bytes.flatMap ofByte) = some bytes := by
  induction bytes with
  | nil => rfl
  | cons b rest ih => rw [List.flatMap_cons, toBytes?_ofByte_append, ih, Option.map_some]

theorem ofByte_ofNat {h l : ℕ} (hh : h < 16) (hl : l < 16) :
    ofByte (UInt8.ofNat (16 * h + l)) = [Nat.digitChar h, Nat.digitChar l] := by
  have hval : (UInt8.ofNat (16 * h + l)).toNat = 16 * h + l :=
    UInt8.toNat_ofNat_of_lt' (by change 16 * h + l < 256; omega)
  rw [ofByte, hval, show (16 * h + l) / 16 = h by omega, show (16 * h + l) % 16 = l by omega]

/-- A run of digits spells these bytes if it is in lower case what they are written as. -/
theorem toBytes?_eq_some :
    toBytes? cs = some bytes ↔ cs.map Char.toLower = bytes.flatMap ofByte := by
  constructor
  · intro h
    induction cs using toBytes?.induct generalizing bytes with
    | case1 =>
      rw [← Option.some.inj h]
      rfl
    | case2 c => cases h
    | case3 high low rest ih =>
      simp only [toBytes?, Option.bind_eq_bind, Option.bind_eq_some_iff, Option.pure_def,
        Option.some.injEq] at h
      obtain ⟨v, hv, w, hw, tail, htail, rfl⟩ := h
      obtain ⟨hhigh, hvlower⟩ := digit?_eq_some.1 hv
      obtain ⟨hlow, hwlower⟩ := digit?_eq_some.1 hw
      rw [List.flatMap_cons, ofByte_ofNat hhigh hlow, ← ih htail, hvlower, hwlower]
      rfl
  · intro h
    rw [← toBytes?_map_toLower, h]
    exact toBytes?_flatMap_ofByte bytes

theorem length_flatMap_ofByte (bytes : List UInt8) :
    (bytes.flatMap ofByte).length = 2 * bytes.length := by
  induction bytes with
  | nil => rfl
  | cons b rest ih =>
    rw [List.flatMap_cons, List.length_append, ih, List.length_cons, ofByte]
    simp only [List.length_cons, List.length_nil]
    omega

theorem length_of_toBytes? (h : toBytes? cs = some bytes) : cs.length = 2 * bytes.length := by
  rw [← length_flatMap_ofByte, ← toBytes?_eq_some.1 h, List.length_map]

theorem isSome_toBytes? : (toBytes? cs).isSome ↔ cs.length % 2 = 0 ∧ ∀ c ∈ cs, IsDigit c := by
  induction cs using toBytes?.induct with
  | case1 => simp [toBytes?]
  | case2 c => simp [toBytes?]
  | case3 high low rest ih =>
    have hstep : (toBytes? (high :: low :: rest)).isSome ↔
        (digit? high).isSome ∧ (digit? low).isSome ∧ (toBytes? rest).isSome := by
      simp only [toBytes?, Option.bind_eq_bind, Option.pure_def]
      cases digit? high <;> cases digit? low <;> cases toBytes? rest <;> simp
    rw [hstep, ih, isSome_digit?, isSome_digit?, List.forall_mem_cons, List.forall_mem_cons,
      List.length_cons, List.length_cons, Nat.add_assoc, Nat.add_mod_right]
    tauto

end Hex

-- ---------------------------------------------------------------------------
-- Blanks at the ends
-- ---------------------------------------------------------------------------

/-- The text neither starts nor ends with a blank. -/
structure Trimmed (cs : List Char) : Prop where
  head : ∀ c ∈ cs.head?, isBlank c = false
  last : ∀ c ∈ cs.getLast?, isBlank c = false

variable {cs front middle back : List Char}

theorem Trimmed.of_forall (h : ∀ c ∈ cs, isBlank c = false) : Trimmed cs where
  head := fun c hc => h c (List.mem_of_mem_head? hc)
  last := fun c hc => h c (List.mem_of_mem_getLast? hc)

theorem Trimmed.insert (h : Trimmed (front ++ back)) (hmiddle : ∀ c ∈ middle, isBlank c = false) :
    Trimmed (front ++ middle ++ back) where
  head := by
    intro c hc
    cases front with
    | cons d rest => exact h.head c hc
    | nil =>
      cases middle with
      | cons d rest => exact hmiddle c (List.mem_of_mem_head? (by simpa using hc))
      | nil => exact h.head c hc
  last := by
    intro c hc
    rcases List.eq_nil_or_concat back with rfl | ⟨rest, d, rfl⟩
    · rcases List.eq_nil_or_concat middle with rfl | ⟨rest, d, rfl⟩
      · exact h.last c (by simpa using hc)
      · exact hmiddle c (by simp_all)
    · exact h.last c (by simpa using hc)

theorem dropWhile_of_head {p : Char → Bool} (h : ∀ c ∈ cs.head?, p c = false) :
    cs.dropWhile p = cs := by
  cases cs with
  | nil => rfl
  | cons c rest => rw [List.dropWhile_cons_of_neg (by simp [h c rfl])]

theorem trimEnd_append {p : Char → Bool} (h : ∀ c ∈ cs.getLast?, p c = false)
    (hback : ∀ c ∈ back, p c = true) : trimEnd p (cs ++ back) = cs := by
  have hhead : ∀ c ∈ cs.reverse.head?, p c = false := by
    rw [List.head?_reverse]
    exact h
  unfold trimEnd
  rw [List.reverse_append, List.dropWhile_append_of_pos (by simpa using hback),
    dropWhile_of_head hhead, List.reverse_reverse]

/-- What stands between blanks is found by taking them off. -/
theorem Trimmed.trimBlanks_append (h : Trimmed cs) (hfront : ∀ c ∈ front, isBlank c = true)
    (hback : ∀ c ∈ back, isBlank c = true) : trimBlanks (front ++ cs ++ back) = cs := by
  unfold trimBlanks
  rw [List.append_assoc, List.dropWhile_append_of_pos hfront]
  cases cs with
  | nil =>
    rw [List.nil_append, List.dropWhile_eq_nil_iff.2 hback]
    rfl
  | cons c rest =>
    rw [dropWhile_of_head (by simpa using h.head)]
    exact trimEnd_append h.last hback

theorem Trimmed.trimBlanks_eq (h : Trimmed cs) : trimBlanks cs = cs := by
  have hnone : ∀ c ∈ ([] : List Char), isBlank c = true := by simp
  simpa using h.trimBlanks_append hnone hnone

theorem head?_dropWhile_eq_false (p : Char → Bool) (cs : List Char) :
    ∀ c ∈ (cs.dropWhile p).head?, p c = false := by
  intro c hc
  have hnot := List.head?_dropWhile_not p cs
  rw [Option.mem_def.1 hc] at hnot
  simpa using hnot

theorem trimmed_trimBlanks (cs : List Char) : Trimmed (trimBlanks cs) where
  head := by
    obtain ⟨rest, hrest⟩ := trimEnd_prefix isBlank (cs.dropWhile isBlank)
    intro c hc
    apply head?_dropWhile_eq_false isBlank cs
    rw [← hrest, List.head?_append]
    change c ∈ (trimEnd isBlank (cs.dropWhile isBlank)).head? at hc
    rw [Option.mem_def.1 hc]
    rfl
  last := by
    intro c hc
    unfold trimBlanks trimEnd at hc
    rw [List.getLast?_reverse] at hc
    exact head?_dropWhile_eq_false isBlank _ c hc

theorem trimBlanks_map_toLower (cs : List Char) :
    trimBlanks (cs.map Char.toLower) = (trimBlanks cs).map Char.toLower := by
  have hblank : isBlank ∘ Char.toLower = isBlank := funext isBlank_toLower
  unfold trimBlanks trimEnd
  rw [List.dropWhile_map, hblank, ← List.map_reverse, List.dropWhile_map, hblank, List.map_reverse]

end CableCapture
