import CableCapture.Proofs.Answers
import CableCapture.Proofs.Reader.Framing
import Mathlib.Algebra.Order.Ring.Nat

/-!
# What fields spell

For every field the bytes that it is read from, and for repeated items the bytes of the items one
after another. All of them are framed.
-/

namespace CableCapture

theorem BigEndian.toUInt16_eq_iff {bytes : List UInt8} {n : UInt16} (h : bytes.length = 2) :
    toUInt16 bytes = n ↔ bytes = ofUInt16 n := by
  constructor
  · rintro rfl
    exact (ofUInt16_toUInt16 h).symm
  · rintro rfl
    exact toUInt16_ofUInt16 n

theorem BigEndian.toUInt32_eq_iff {bytes : List UInt8} {n : UInt32} (h : bytes.length = 4) :
    toUInt32 bytes = n ↔ bytes = ofUInt32 n := by
  constructor
  · rintro rfl
    exact (ofUInt32_toUInt32 h).symm
  · rintro rfl
    exact toUInt32_ofUInt32 n

/-- A length that fits its field is written like any other number. -/
theorem BigEndian.ofUInt32_ofNat {n : Nat} (h : n < 2 ^ 32) :
    ofUInt32 (.ofNat n) = ofNat 4 n := by
  rw [ofUInt32, UInt32.toNat_ofNat_of_lt' h]

theorem BigEndian.ofUInt16_ofNat {n : Nat} (h : n < 2 ^ 16) :
    ofUInt16 (.ofNat n) = ofNat 2 n := by
  rw [ofUInt16, UInt16.toNat_ofNat_of_lt' h]

theorem BigEndian.ofNat_one (n : Nat) : ofNat 1 n = [UInt8.ofNat n] := rfl

namespace Reader

variable {α β : Type}

/-! ## Fields -/

/-- A field of `n` bytes with a value for every one of them. -/
theorem spells_take_bind_pure {field : String} {n : Nat} {value : List UInt8 → α}
    {bytes : List UInt8} {a : α} :
    (take field n >>= fun front => Pure.pure (value front)).Spells bytes a ↔
      bytes.length = n ∧ value bytes = a := by
  rw [(Framed.take field n).spells_bind]
  constructor
  · rintro ⟨front, used, hused, more, rfl, hmore⟩
    obtain ⟨rfl, hlen⟩ := spells_take.1 hused
    obtain ⟨rfl, hvalue⟩ := spells_pure.1 hmore
    rw [List.append_nil]
    exact ⟨hlen, hvalue⟩
  · rintro ⟨hlen, hvalue⟩
    exact ⟨bytes, bytes, spells_take.2 ⟨rfl, hlen⟩, [], by simp, spells_pure.2 ⟨rfl, hvalue⟩⟩

theorem Framed.take_bind_pure (field : String) (n : Nat) (value : List UInt8 → α) :
    (Reader.take field n >>= fun front => Pure.pure (value front)).Framed :=
  .bind (.take field n) fun _ => .pure _

theorem spells_uint8 {field : String} {bytes : List UInt8} {b : UInt8} :
    (uint8 field).Spells bytes b ↔ bytes = [b] := by
  rw [uint8, spells_take_bind_pure]
  constructor
  · rintro ⟨hlen, hvalue⟩
    obtain ⟨c, rfl⟩ := List.length_eq_one_iff.1 hlen
    exact congrArg (fun b => [b]) hvalue
  · rintro rfl
    exact ⟨rfl, rfl⟩

theorem Framed.uint8 (field : String) : (uint8 field).Framed := .take_bind_pure ..

theorem spells_uint16 {field : String} {bytes : List UInt8} {n : UInt16} :
    (uint16 field).Spells bytes n ↔ bytes = BigEndian.ofUInt16 n := by
  rw [uint16, spells_take_bind_pure]
  constructor
  · rintro ⟨hlen, hvalue⟩
    exact (BigEndian.toUInt16_eq_iff hlen).1 hvalue
  · rintro rfl
    exact ⟨BigEndian.length_ofUInt16 n, BigEndian.toUInt16_ofUInt16 n⟩

theorem Framed.uint16 (field : String) : (uint16 field).Framed := .take_bind_pure ..

theorem spells_uint32 {field : String} {bytes : List UInt8} {n : UInt32} :
    (uint32 field).Spells bytes n ↔ bytes = BigEndian.ofUInt32 n := by
  rw [uint32, spells_take_bind_pure]
  constructor
  · rintro ⟨hlen, hvalue⟩
    exact (BigEndian.toUInt32_eq_iff hlen).1 hvalue
  · rintro rfl
    exact ⟨BigEndian.length_ofUInt32 n, BigEndian.toUInt32_ofUInt32 n⟩

theorem Framed.uint32 (field : String) : (uint32 field).Framed := .take_bind_pure ..

theorem spells_mac {field : String} {bytes : List UInt8} {m : MacAddress} :
    (mac field).Spells bytes m ↔ bytes = m.octets := by
  rw [mac, spells_take_bind_pure]
  constructor
  · rintro ⟨hlen, hvalue⟩
    rw [MacAddress.ofOctets?, dif_pos hlen, Option.getD_some] at hvalue
    rw [← hvalue]
  · rintro rfl
    rw [MacAddress.ofOctets?_octets]
    exact ⟨m.length_octets, rfl⟩

theorem Framed.mac (field : String) : (mac field).Framed := .take_bind_pure ..

theorem spells_declared {field : String} {bytes data : List UInt8} :
    (declared field).Spells bytes data ↔ data.length < 2 ^ 32 ∧ bytes = declaredBytes data := by
  rw [declared, (Framed.uint32 field).spells_bind]
  constructor
  · rintro ⟨size, used, hused, more, rfl, hmore⟩
    rw [spells_uint32] at hused
    obtain ⟨rfl, hlen⟩ := spells_take.1 hmore
    rw [hused, declaredBytes, hlen]
    exact ⟨size.toNat_lt, rfl⟩
  · rintro ⟨hlen, rfl⟩
    refine ⟨.ofNat data.length, _, spells_uint32.2 rfl, data, ?_, spells_take.2 ⟨rfl, ?_⟩⟩
    · rw [declaredBytes, BigEndian.ofUInt32_ofNat hlen]
    · rw [UInt32.toNat_ofNat_of_lt' hlen]

theorem Framed.declared (field : String) : (declared field).Framed :=
  .bind (.uint32 field) fun _ => .take ..

/-! ## Steps of a whole byte string -/

section Steps

variable {field : String} {bytes : List UInt8} {b : β}

theorem decode_pure (b : β) (bytes : List UInt8) : decode (Pure.pure b) bytes = .ok b := rfl

theorem decode_uint8_bind {next : UInt8 → Reader β} :
    (uint8 field >>= next).decode bytes = .ok b ↔
      ∃ n rest, bytes = [n] ++ rest ∧ (next n).decode rest = .ok b := by
  simp only [(Framed.uint8 field).decode_bind_eq_ok, spells_uint8, exists_eq_left]

theorem decode_uint16_bind {next : UInt16 → Reader β} :
    (uint16 field >>= next).decode bytes = .ok b ↔
      ∃ n rest, bytes = BigEndian.ofUInt16 n ++ rest ∧ (next n).decode rest = .ok b := by
  simp only [(Framed.uint16 field).decode_bind_eq_ok, spells_uint16, exists_eq_left]

theorem decode_uint32_bind {next : UInt32 → Reader β} :
    (uint32 field >>= next).decode bytes = .ok b ↔
      ∃ n rest, bytes = BigEndian.ofUInt32 n ++ rest ∧ (next n).decode rest = .ok b := by
  simp only [(Framed.uint32 field).decode_bind_eq_ok, spells_uint32, exists_eq_left]

theorem decode_mac_bind {next : MacAddress → Reader β} :
    (mac field >>= next).decode bytes = .ok b ↔
      ∃ m rest, bytes = m.octets ++ rest ∧ (next m).decode rest = .ok b := by
  simp only [(Framed.mac field).decode_bind_eq_ok, spells_mac, exists_eq_left]

theorem decode_declared_bind {next : List UInt8 → Reader β} :
    (declared field >>= next).decode bytes = .ok b ↔
      ∃ data, data.length < 2 ^ 32 ∧
        ∃ rest, bytes = declaredBytes data ++ rest ∧ (next data).decode rest = .ok b := by
  simp only [(Framed.declared field).decode_bind_eq_ok, spells_declared, and_assoc,
    exists_and_left, exists_eq_left]

theorem decode_check_bind {answer : Except Fault α} {next : α → Reader β} :
    (check answer >>= next).decode bytes = .ok b ↔
      ∃ a, answer = .ok a ∧ (next a).decode bytes = .ok b := by
  simp only [(Framed.check answer).decode_bind_eq_ok, spells_check, and_assoc, exists_eq_left,
    List.nil_append, exists_eq_left']

end Steps

/-! ## Items one after another -/

section Items

/-- The item is spelled in one way, and only where it fits its fields. -/
def Writes (item : Reader α) (Fits : α → Prop) (write : α → List UInt8) : Prop :=
  ∀ {bytes : List UInt8} {a : α}, item.Spells bytes a ↔ Fits a ∧ bytes = write a

variable {item : Reader α} {Fits : α → Prop} {write : α → List UInt8}

theorem Framed.times (hitem : item.Framed) (n : Nat) : (times item n).Framed := by
  induction n with
  | zero => exact .pure _
  | succ n ih => exact .bind hitem fun _ => .bind ih fun _ => .pure _

theorem Framed.spells_times (hitem : item.Framed) (hwrites : item.Writes Fits write)
    {n : Nat} {bytes : List UInt8} {as : List α} :
    (Reader.times item n).Spells bytes as ↔
      as.length = n ∧ (∀ a ∈ as, Fits a) ∧ bytes = as.flatMap write := by
  induction n generalizing bytes as with
  | zero =>
    rw [Reader.times, spells_pure]
    constructor
    · rintro ⟨rfl, rfl⟩
      simp
    · rintro ⟨hlen, -, rfl⟩
      simp [List.length_eq_zero_iff.1 hlen]
  | succ n ih =>
    rw [Reader.times, hitem.spells_bind]
    constructor
    · rintro ⟨a, used, hused, rest, rfl, hrest⟩
      rw [(hitem.times n).spells_bind] at hrest
      obtain ⟨others, middle, hmiddle, more, rfl, hmore⟩ := hrest
      obtain ⟨rfl, rfl⟩ := spells_pure.1 hmore
      obtain ⟨hfits, rfl⟩ := hwrites.1 hused
      obtain ⟨rfl, hothers, rfl⟩ := ih.1 hmiddle
      simp only [List.length_cons, List.forall_mem_cons, List.flatMap_cons, List.append_nil]
      exact ⟨trivial, ⟨hfits, hothers⟩, trivial⟩
    · rintro ⟨hlen, hfits, rfl⟩
      obtain ⟨a, others, rfl⟩ := List.exists_cons_of_length_eq_add_one hlen
      rw [List.forall_mem_cons] at hfits
      refine ⟨a, write a, hwrites.2 ⟨hfits.1, rfl⟩, others.flatMap write, List.flatMap_cons, ?_⟩
      have hothers := ih.2 ⟨Nat.succ.inj hlen, hfits.2, rfl⟩
      rw [← List.append_nil (others.flatMap write)]
      exact hothers.bind (spells_pure.2 ⟨rfl, rfl⟩)

theorem untilEnd_nil (consumes : item.Consumes) : untilEnd item @consumes [] = .ok [] := by
  rw [untilEnd]
  rfl

theorem untilEnd_of_error (consumes : item.Consumes) {bytes rest : List UInt8} {fault : Fault}
    (hne : bytes ≠ []) (h : item.on bytes = (.error fault, rest)) :
    untilEnd item @consumes bytes = .error fault := by
  rw [untilEnd, if_neg hne]
  split <;> simp_all

theorem untilEnd_of_ok (consumes : item.Consumes) {bytes rest : List UInt8} {first : α}
    (h : item.on bytes = (.ok first, rest)) :
    untilEnd item @consumes bytes = (untilEnd item @consumes rest).map (first :: ·) := by
  have hne : bytes ≠ [] := by
    have hlt := consumes h
    rintro rfl
    simp at hlt
  rw [untilEnd, if_neg hne]
  split
  · simp_all
  · rename_i a others hother
    rw [h, Prod.mk.injEq, Except.ok.injEq] at hother
    obtain ⟨rfl, rfl⟩ := hother
    cases untilEnd item @consumes rest <;> rfl

/-- Where reading to the end succeeds, either nothing is left or an item and then the others are. -/
theorem untilEnd_cases (consumes : item.Consumes) {bytes : List UInt8} {as : List α}
    (h : untilEnd item @consumes bytes = .ok as) :
    bytes = [] ∧ as = [] ∨
      ∃ first rest others, item.on bytes = (.ok first, rest) ∧
        untilEnd item @consumes rest = .ok others ∧ as = first :: others := by
  by_cases hbytes : bytes = []
  · subst hbytes
    rw [untilEnd_nil @consumes] at h
    exact .inl ⟨rfl, (Except.ok.inj h).symm⟩
  · obtain ⟨answer, rest, hon⟩ : ∃ answer rest, item.on bytes = (answer, rest) := ⟨_, _, rfl⟩
    cases answer with
    | error fault =>
      rw [untilEnd_of_error @consumes hbytes hon] at h
      cases h
    | ok first =>
      rw [untilEnd_of_ok @consumes hon] at h
      obtain ⟨others, hrest, rfl⟩ := map_eq_ok.1 h
      exact .inr ⟨first, rest, others, hon, hrest, rfl⟩

/-- Reading to the end succeeds on the items one after another, and on nothing else. -/
theorem Framed.untilEnd_eq_ok (hitem : item.Framed) (hwrites : item.Writes Fits write)
    (consumes : item.Consumes) {bytes : List UInt8} {as : List α} :
    untilEnd item @consumes bytes = .ok as ↔ (∀ a ∈ as, Fits a) ∧ bytes = as.flatMap write := by
  induction as generalizing bytes with
  | nil =>
    constructor
    · intro h
      rcases untilEnd_cases @consumes h with ⟨rfl, -⟩ | ⟨first, rest, others, -, -, hcons⟩
      · simp
      · cases hcons
    · rintro ⟨-, rfl⟩
      exact untilEnd_nil @consumes
  | cons a as ih =>
    constructor
    · intro h
      rcases untilEnd_cases @consumes h with ⟨-, hnil⟩ | ⟨first, rest, others, hon, hrest, hcons⟩
      · cases hnil
      · obtain ⟨rfl, rfl⟩ := List.cons.inj hcons
        obtain ⟨used, hused, rfl⟩ := hitem.spells hon
        obtain ⟨hfits, rfl⟩ := hwrites.1 hused
        obtain ⟨hothers, rfl⟩ := ih.1 hrest
        exact ⟨List.forall_mem_cons.2 ⟨hfits, hothers⟩, rfl⟩
    · rintro ⟨hfits, rfl⟩
      rw [List.forall_mem_cons] at hfits
      have hon : item.on (write a ++ as.flatMap write) = (.ok a, as.flatMap write) :=
        hwrites.2 ⟨hfits.1, rfl⟩ _
      rw [List.flatMap_cons, untilEnd_of_ok @consumes hon, ih.2 ⟨hfits.2, rfl⟩]
      rfl

end Items

end Reader

end CableCapture
