import CableCapture.Proofs.Reader.Fields

/-!
# Where reading stops

A reader that fails for want of bytes has read every field in front of the one it names, and what is
left is too short for that one. Repetition stops behind the items that are complete: a counted one
inside the next item, one that goes on to the end of the bytes with the fault of the next item.
-/

namespace CableCapture.Reader

variable {α β : Type} {bytes : List UInt8} {fault : Fault}

/-! ## Single steps -/

/-- The bytes end inside the field that comes next. -/
def EndsInside (field : String) (needed : Nat) (bytes : List UInt8) (fault : Fault) : Prop :=
  bytes.length < needed ∧ fault = .truncatedPayload field needed bytes.length

/-- The bytes end inside a field, where a relation says what may be in front of which field and how
many bytes the field needs. -/
def Stops (Awaits : List UInt8 → String → Nat → Prop) (bytes : List UInt8) (fault : Fault) : Prop :=
  ∃ front field needed tail,
    Awaits front field needed ∧ bytes = front ++ tail ∧ EndsInside field needed tail fault

theorem decode_take_eq_error {field : String} {n : Nat} :
    (take field n).decode bytes = .error fault ↔ EndsInside field n bytes fault := by
  rw [decode, on_take, EndsInside]
  split
  · rename_i hfits
    simp only [reduceCtorEq, false_iff]
    omega
  · rename_i hshort
    simp only [Except.error.injEq]
    constructor
    · rintro rfl
      exact ⟨by omega, rfl⟩
    · rintro ⟨-, rfl⟩
      rfl

theorem decode_bind_pure_eq_error {first : Reader α} {value : α → β} :
    (first >>= fun a => Pure.pure (value a)).decode bytes = .error fault ↔
      first.decode bytes = .error fault := by
  rw [decode_bind, decode]
  cases first.on bytes with
  | mk answer rest =>
    cases answer with
    | error cause => simp
    | ok a => simp [decode_pure]

theorem Framed.decode_bind_eq_error {first : Reader α} {next : α → Reader β}
    (hfirst : first.Framed) :
    (first >>= next).decode bytes = .error fault ↔
      first.decode bytes = .error fault ∨
        ∃ a used, first.Spells used a ∧
          ∃ rest, bytes = used ++ rest ∧ (next a).decode rest = .error fault := by
  rw [decode_bind, decode]
  cases hon : first.on bytes with
  | mk answer rest =>
    cases answer with
    | error cause =>
      simp only [Except.error.injEq]
      refine ⟨.inl, ?_⟩
      rintro (hcause | ⟨a, used, hused, rest, rfl, -⟩)
      · exact hcause
      · rw [hused] at hon
        cases hon
    | ok a =>
      simp only [reduceCtorEq, false_or]
      obtain ⟨used, hused, rfl⟩ := hfirst.spells hon
      constructor
      · intro hnext
        exact ⟨a, used, hused, rest, rfl, hnext⟩
      · rintro ⟨b, other, hother, more, hsplit, hmore⟩
        rw [hsplit, hother] at hon
        obtain ⟨hsame, rfl⟩ := Prod.mk.inj hon
        rwa [Except.ok.inj hsame] at hmore

theorem decode_finish_bind_pure_eq_error {context : String} {value : Unit → β} :
    (finish context >>= fun u => Pure.pure (value u)).decode bytes = .error fault ↔
      bytes ≠ [] ∧ fault = .lengthMismatch (.trailing bytes.length context) := by
  rw [decode_bind_pure_eq_error, decode, on_finish]
  by_cases h : bytes = []
  · simp [h]
  · rw [if_neg h]
    simp [h, eq_comm]

/-! ## Fields -/

section Fields

variable {field : String}

theorem decode_uint8_bind_eq_error {next : UInt8 → Reader β} :
    (uint8 field >>= next).decode bytes = .error fault ↔
      EndsInside field 1 bytes fault ∨
        ∃ n rest, bytes = [n] ++ rest ∧ (next n).decode rest = .error fault := by
  simp only [(Framed.uint8 field).decode_bind_eq_error, spells_uint8, exists_eq_left]
  rw [uint8, decode_bind_pure_eq_error, decode_take_eq_error]

theorem decode_uint16_bind_eq_error {next : UInt16 → Reader β} :
    (uint16 field >>= next).decode bytes = .error fault ↔
      EndsInside field 2 bytes fault ∨
        ∃ n rest, bytes = BigEndian.ofUInt16 n ++ rest ∧ (next n).decode rest = .error fault := by
  simp only [(Framed.uint16 field).decode_bind_eq_error, spells_uint16, exists_eq_left]
  rw [uint16, decode_bind_pure_eq_error, decode_take_eq_error]

theorem decode_uint32_bind_eq_error {next : UInt32 → Reader β} :
    (uint32 field >>= next).decode bytes = .error fault ↔
      EndsInside field 4 bytes fault ∨
        ∃ n rest, bytes = BigEndian.ofUInt32 n ++ rest ∧ (next n).decode rest = .error fault := by
  simp only [(Framed.uint32 field).decode_bind_eq_error, spells_uint32, exists_eq_left]
  rw [uint32, decode_bind_pure_eq_error, decode_take_eq_error]

theorem decode_mac_bind_eq_error {next : MacAddress → Reader β} :
    (mac field >>= next).decode bytes = .error fault ↔
      EndsInside field 6 bytes fault ∨
        ∃ m rest, bytes = m.octets ++ rest ∧ (next m).decode rest = .error fault := by
  simp only [(Framed.mac field).decode_bind_eq_error, spells_mac, exists_eq_left]
  rw [mac, decode_bind_pure_eq_error, decode_take_eq_error]

end Fields

/-! ## Items one after another -/

section Items

variable {item : Reader α} {Fits : α → Prop} {write : α → List UInt8}

/-- A counted repetition fails in the item behind those that are complete. -/
theorem Framed.decode_times_eq_error (hitem : item.Framed) (hwrites : item.Writes Fits write)
    {n : Nat} :
    (Reader.times item n).decode bytes = .error fault ↔
      ∃ done : List α, done.length < n ∧ (∀ a ∈ done, Fits a) ∧
        ∃ rest, bytes = done.flatMap write ++ rest ∧ item.decode rest = .error fault := by
  induction n generalizing bytes with
  | zero => simp [Reader.times, decode_pure]
  | succ n ih =>
    rw [Reader.times, hitem.decode_bind_eq_error]
    simp only [decode_bind_pure_eq_error, ih]
    constructor
    · rintro (hfirst | ⟨a, used, hused, rest, rfl, done, hlen, hdone, more, rfl, hmore⟩)
      · exact ⟨[], by simp, by simp, bytes, rfl, hfirst⟩
      · obtain ⟨hfits, rfl⟩ := hwrites.1 hused
        refine ⟨a :: done, by simpa using hlen, List.forall_mem_cons.2 ⟨hfits, hdone⟩, more, ?_,
          hmore⟩
        rw [List.flatMap_cons, List.append_assoc]
    · rintro ⟨done, hlen, hdone, rest, rfl, hrest⟩
      cases done with
      | nil => exact .inl hrest
      | cons a done =>
        rw [List.forall_mem_cons] at hdone
        refine .inr ⟨a, write a, hwrites.2 ⟨hdone.1, rfl⟩, done.flatMap write ++ rest, ?_, done,
          by simpa using hlen, hdone.2, rest, rfl, hrest⟩
        rw [List.flatMap_cons, List.append_assoc]

/-- Complete items in front do not change how reading to the end goes on. -/
theorem untilEnd_append (hwrites : item.Writes Fits write) (consumes : item.Consumes)
    {as : List α} (hfits : ∀ a ∈ as, Fits a) (rest : List UInt8) :
    untilEnd item @consumes (as.flatMap write ++ rest) =
      (untilEnd item @consumes rest).map (as ++ ·) := by
  induction as with
  | nil =>
    rw [List.flatMap_nil, List.nil_append]
    cases untilEnd item @consumes rest <;> rfl
  | cons a as ih =>
    rw [List.forall_mem_cons] at hfits
    have hspells : item.Spells (write a) a := hwrites.2 ⟨hfits.1, rfl⟩
    rw [List.flatMap_cons, List.append_assoc, untilEnd_of_ok @consumes (hspells _), ih hfits.2]
    cases untilEnd item @consumes rest <;> rfl

/-- Reading to the end stops with the first item that fails. -/
theorem untilEnd_append_of_error (hwrites : item.Writes Fits write) (consumes : item.Consumes)
    {as : List α} (hfits : ∀ a ∈ as, Fits a) {rest left : List UInt8} (hne : rest ≠ [])
    (h : item.on rest = (.error fault, left)) :
    untilEnd item @consumes (as.flatMap write ++ rest) = .error fault := by
  rw [untilEnd_append hwrites @consumes hfits, untilEnd_of_error @consumes hne h]
  rfl

/-- The bytes are some of the first ones, but not all. -/
def CutFrom (whole bytes : List UInt8) : Prop :=
  bytes ≠ [] ∧ ∃ more, more ≠ [] ∧ whole = bytes ++ more

/-- An item that is cut is too short, however complete the items in front of it are. -/
theorem Framed.untilEnd_of_cut (hitem : item.Framed) (hwrites : item.Writes Fits write)
    (consumes : item.Consumes) {as : List α} {a : α} {front : List UInt8}
    (hfits : ∀ b ∈ as, Fits b) (ha : Fits a) (hcut : CutFrom (write a) front) :
    ∃ field needed available, untilEnd item @consumes (as.flatMap write ++ front) =
      .error (.truncatedPayload field needed available) := by
  obtain ⟨hfront, more, hmore, hcut⟩ := hcut
  obtain ⟨field, needed, available, hstarves⟩ :=
    hitem.starves (hwrites.2 ⟨ha, hcut.symm⟩) hmore
  refine ⟨field, needed, available, ?_⟩
  exact untilEnd_append_of_error hwrites @consumes hfits hfront (Prod.ext hstarves rfl)

/-- An answer for all items up to the end of the bytes, after at most one step for each byte: either
the steps leave nothing and the items are the answer, or the next item fails with it. -/
def Finishes (item : Reader α) (bytes : List UInt8) (answer : Except Fault (List α)) : Prop :=
  ∃ as rest, (times item as.length).on bytes = (.ok as, rest) ∧
    as.length + rest.length ≤ bytes.length ∧
    (rest = [] ∧ answer = .ok as ∨
      rest ≠ [] ∧ ∃ fault left, item.on rest = (.error fault, left) ∧ answer = .error fault)

theorem finishes_untilEnd (consumes : item.Consumes) (bytes : List UInt8) :
    item.Finishes bytes (untilEnd item @consumes bytes) := by
  induction hlen : bytes.length using Nat.strongRecOn generalizing bytes with
  | ind n ih =>
    by_cases hbytes : bytes = []
    · subst hbytes
      exact ⟨[], [], rfl, by simp, .inl ⟨rfl, untilEnd_nil @consumes⟩⟩
    cases hon : item.on bytes with
    | mk answer middle =>
      cases answer with
      | error fault =>
        refine ⟨[], bytes, rfl, by simp [hlen], .inr ⟨hbytes, fault, middle, hon, ?_⟩⟩
        exact untilEnd_of_error @consumes hbytes hon
      | ok a =>
        have hshorter := consumes hon
        obtain ⟨as, rest, hread, hcount, hstop⟩ := ih _ (hlen ▸ hshorter) middle rfl
        refine ⟨a :: as, rest, ?_, by simp only [List.length_cons]; omega, ?_⟩
        · rw [List.length_cons, times, on_bind, hon]
          dsimp only
          rw [on_bind, hread]
          rfl
        · rw [untilEnd_of_ok @consumes hon]
          rcases hstop with ⟨hrest, hall⟩ | ⟨hrest, fault, left, hfault, hall⟩
          · exact .inl ⟨hrest, by rw [hall]; rfl⟩
          · exact .inr ⟨hrest, fault, left, hfault, by rw [hall]; rfl⟩

end Items

end CableCapture.Reader
