import CableCapture.Proofs.Chunks
import CableCapture.Proofs.Reader.Fields
import CableCapture.Record.Basic

/-!
# Fields by their position

Where all fields have fixed sizes, a field is a part of the payload at a fixed position. A payload
of such fields and one block behind its length is read in one of three ways, which its length and
the announced one decide: too short, too long, or a block that fills the rest.
-/

namespace CableCapture

/-! ## Parts of a payload -/

def byteAt (payload : List UInt8) (pos : Nat) : UInt8 :=
  (payload.extract pos (pos + 1)).headD 0

def uint16At (payload : List UInt8) (pos : Nat) : UInt16 :=
  BigEndian.toUInt16 (payload.extract pos (pos + 2))

def uint32At (payload : List UInt8) (pos : Nat) : UInt32 :=
  BigEndian.toUInt32 (payload.extract pos (pos + 4))

/-- The address of six octets; there is one wherever there are six. -/
def macAt (payload : List UInt8) (pos : Nat) : MacAddress :=
  (MacAddress.ofOctets? (payload.extract pos (pos + 6))).getD .unset

def layoutAt (payload : List UInt8) (pos : Nat) : SubcarrierLayout where
  zeroFrequencyHz := uint32At payload pos
  firstActive := uint16At payload (pos + 4)
  spacingKhz := byteAt payload (pos + 6)

/-- The length that the last four bytes of the front announce. -/
def announced (payload : List UInt8) (front : Nat) : Nat :=
  (uint32At payload (front - 4)).toNat

namespace Reader

variable {α β : Type}

/-! ## Readers of fixed sizes -/

/-- The reader takes the bytes at a position, whatever they are, and fails only where they are
missing. -/
structure ReadsAt (item : Reader α) (width : Nat) (value : List UInt8 → Nat → α) : Prop where
  on_drop : ∀ (payload : List UInt8) (pos : Nat), pos + width ≤ payload.length →
    item.on (payload.drop pos) = (.ok (value payload pos), payload.drop (pos + width))
  starves_drop : ∀ (payload : List UInt8) (pos : Nat), payload.length < pos + width →
    item.Starves (payload.drop pos)

theorem ReadsAt.take_bind_pure (field : String) {width : Nat} (hwidth : 0 < width)
    (value : List UInt8 → α) :
    ReadsAt (Reader.take field width >>= fun front => Pure.pure (value front)) width
      fun payload pos => value (payload.extract pos (pos + width)) where
  on_drop := by
    intro payload pos hfits
    have hsplit : payload.drop pos =
        payload.extract pos (pos + width) ++ payload.drop (pos + width) := by
      rw [List.extract_eq_take_drop, Nat.add_sub_cancel_left, ← List.drop_drop,
        List.take_append_drop]
    rw [hsplit]
    exact spells_take_bind_pure.2 ⟨length_extract hfits, rfl⟩ _
  starves_drop := by
    intro payload pos hshort
    apply Starves.bind
    refine ⟨field, width, (payload.drop pos).length, ?_⟩
    rw [decode, on_take, if_neg]
    rw [List.length_drop]
    omega

theorem readsAt_uint8 (field : String) : (uint8 field).ReadsAt 1 byteAt :=
  .take_bind_pure field (by decide) _

theorem readsAt_uint16 (field : String) : (uint16 field).ReadsAt 2 uint16At :=
  .take_bind_pure field (by decide) _

theorem readsAt_uint32 (field : String) : (uint32 field).ReadsAt 4 uint32At :=
  .take_bind_pure field (by decide) _

theorem readsAt_mac (field : String) : (mac field).ReadsAt 6 macAt :=
  .take_bind_pure field (by decide) _

theorem ReadsAt.map {item : Reader α} {width : Nat} {value : List UInt8 → Nat → α}
    (hitem : item.ReadsAt width value) (f : α → β) :
    ReadsAt (item >>= fun a => Pure.pure (f a)) width fun payload pos => f (value payload pos) where
  on_drop := by
    intro payload pos hfits
    rw [on_bind, hitem.on_drop payload pos hfits]
    rfl
  starves_drop payload pos hshort := (hitem.starves_drop payload pos hshort).bind

theorem ReadsAt.bind {first : Reader α} {next : α → Reader β} {width more : Nat}
    {value : List UInt8 → Nat → α} {result : α → List UInt8 → Nat → β}
    (hfirst : first.ReadsAt width value) (hnext : ∀ a, (next a).ReadsAt more (result a)) :
    ReadsAt (first >>= next) (width + more)
      fun payload pos => result (value payload pos) payload (pos + width) where
  on_drop := by
    intro payload pos hfits
    rw [on_bind, hfirst.on_drop payload pos (by omega)]
    dsimp only
    rw [(hnext _).on_drop payload _ (by omega), Nat.add_assoc]
  starves_drop := by
    intro payload pos hshort
    by_cases hfits : pos + width ≤ payload.length
    · obtain ⟨field, needed, available, hstarves⟩ :=
        (hnext (value payload pos)).starves_drop payload (pos + width) (by omega)
      refine ⟨field, needed, available, ?_⟩
      rw [decode_bind, hfirst.on_drop payload pos hfits]
      exact hstarves
    · exact (hfirst.starves_drop payload pos (by omega)).bind

theorem readsAt_layout : SubcarrierLayout.reader.ReadsAt 7 layoutAt :=
  (readsAt_uint32 _).bind fun _ => (readsAt_uint16 _).bind fun _ => (readsAt_uint8 _).map _

/-! ## One block behind the fields -/

/-- What becomes of a payload with one block behind so many bytes, the last four of them the length
of the block. -/
inductive ReadsBlock (payload : List UInt8) (front : Nat) (read : List UInt8 → Except Fault α) :
    Except Fault α → Prop where
  | short (field : String) (needed available : Nat)
    (missing : payload.length < front ∨ payload.length < front + announced payload front) :
    ReadsBlock payload front read (.error (.truncatedPayload field needed available))
  | long (context : String) (fits : front ≤ payload.length)
    (more : front + announced payload front < payload.length) :
    ReadsBlock payload front read (.error (.lengthMismatch
      (.trailing (payload.length - (front + announced payload front)) context)))
  | exact (fills : payload.length = front + announced payload front) :
    ReadsBlock payload front read (read (payload.drop front))

variable {payload : List UInt8} {front pos : Nat} {read : List UInt8 → Except Fault β}

theorem ReadsBlock.of_starves {item : Reader β} {bytes : List UInt8} (h : item.Starves bytes)
    (missing : payload.length < front ∨ payload.length < front + announced payload front) :
    ReadsBlock payload front read (item.decode bytes) := by
  obtain ⟨field, needed, available, hstarves⟩ := h
  rw [hstarves]
  exact .short field needed available missing

/-- A field in front of the block, at its position. -/
theorem ReadsBlock.field (pos : Nat) {item : Reader α} {next : α → Reader β} {width : Nat}
    {value : List UInt8 → Nat → α} (hitem : item.ReadsAt width value) (hpos : pos + width ≤ front)
    (hnext : ReadsBlock payload front read
      ((next (value payload pos)).decode (payload.drop (pos + width)))) :
    ReadsBlock payload front read ((item >>= next).decode (payload.drop pos)) := by
  by_cases hfits : pos + width ≤ payload.length
  · rwa [decode_bind, hitem.on_drop payload pos hfits]
  · exact .of_starves (hitem.starves_drop payload pos (by omega)).bind (.inl (by omega))

/-- The block itself. Its length is read first, so what is missing may be the length or the block. -/
theorem ReadsBlock.declared {field context : String} {rest : List UInt8 → Reader β}
    (hrest : ∀ data, (rest data).decode [] = read data) :
    ReadsBlock payload (pos + 4) read
      ((Reader.declared field >>= fun data => Reader.finish context >>= fun _ => rest data).decode
        (payload.drop pos)) := by
  have hannounced : announced payload (pos + 4) = (uint32At payload pos).toNat := by
    rw [announced, Nat.add_sub_cancel]
  by_cases hlength : pos + 4 ≤ payload.length
  · have hsize := (readsAt_uint32 field).on_drop payload pos hlength
    have hblock : (Reader.declared field).on (payload.drop pos) =
        (Reader.take field (announced payload (pos + 4))).on (payload.drop (pos + 4)) := by
      rw [Reader.declared, on_bind, hsize, hannounced]
    rw [decode_bind, hblock, on_take, List.length_drop]
    by_cases hfits : pos + 4 + announced payload (pos + 4) ≤ payload.length
    · rw [if_pos (by omega)]
      dsimp only
      rw [decode_bind, on_finish, List.drop_drop]
      by_cases hend : payload.drop (pos + 4 + announced payload (pos + 4)) = []
      · have hfills : payload.length = pos + 4 + announced payload (pos + 4) :=
          Nat.le_antisymm (List.drop_eq_nil_iff.1 hend) hfits
        rw [if_pos hend, List.take_of_length_le (by rw [List.length_drop]; omega)]
        dsimp only
        rw [hrest]
        exact .exact hfills
      · rw [if_neg hend, List.length_drop]
        exact .long context hlength (Nat.lt_of_not_le (mt List.drop_eq_nil_iff.2 hend))
    · rw [if_neg (by omega)]
      exact .short field _ _ (.inr (by omega))
  · have hstarves : (Reader.declared field).Starves (payload.drop pos) :=
      ((readsAt_uint32 field).starves_drop payload pos (by omega)).bind
    exact .of_starves hstarves.bind (.inl (by omega))

end Reader

end CableCapture
