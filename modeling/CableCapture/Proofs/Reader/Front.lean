import CableCapture.Proofs.Reader.Framing

/-!
# What a reader does first

Some readers look at the front of the bytes only, and some go on where another one stops. What the
first reader refuses, the longer one refuses for the same reason.
-/

namespace CableCapture

namespace Reader

variable {α β : Type} {n m : Nat}

/-! ## Readers of the front -/

/-- The answer does not depend on what stands behind the first `n` bytes. -/
def Within (item : Reader α) (n : Nat) : Prop :=
  ∀ bytes : List UInt8, item.decode (bytes.take n) = item.decode bytes

theorem Within.pure (a : α) : Within (Pure.pure a) 0 := fun _ => rfl

theorem Within.throw (fault : Fault) : Within (MonadExcept.throw fault : Reader α) 0 := fun _ => rfl

theorem Within.mono {item : Reader α} (h : item.Within n) (hle : n ≤ m) : item.Within m := by
  intro bytes
  have htake : (bytes.take m).take n = bytes.take n := by
    rw [List.take_take, Nat.min_eq_left hle]
  rw [← h (bytes.take m), htake, h bytes]

theorem Within.take_bind {field : String} {next : List UInt8 → Reader β}
    (hnext : ∀ front, (next front).Within m) : (take field n >>= next).Within (n + m) := by
  intro bytes
  rcases Nat.le_total (n + m) bytes.length with hlong | hshort
  · have hlen : n ≤ (bytes.take (n + m)).length := by
      rw [List.length_take]
      omega
    have hfront : (bytes.take (n + m)).take n = bytes.take n := by
      rw [List.take_take, Nat.min_eq_left (Nat.le_add_right n m)]
    have hrest : (bytes.take (n + m)).drop n = (bytes.drop n).take m := by
      rw [List.drop_take, Nat.add_sub_cancel_left]
    rw [decode_bind, decode_bind, on_take, on_take, if_pos hlen, if_pos (by omega), hfront, hrest]
    exact hnext _ _
  · rw [List.take_of_length_le hshort]

/-- A field whose value is computed from `n` bytes. -/
theorem Within.take_map_bind {field : String} {value : List UInt8 → α} {next : α → Reader β}
    (hnext : ∀ a, (next a).Within m) :
    ((take field n >>= fun front => Pure.pure (value front)) >>= next).Within (n + m) := by
  rw [bind_assoc]
  exact .take_bind fun front => hnext (value front)

theorem Within.uint8_bind {field : String} {next : UInt8 → Reader β}
    (hnext : ∀ b, (next b).Within m) : (uint8 field >>= next).Within (1 + m) :=
  .take_map_bind hnext

theorem Within.mac_bind {field : String} {next : MacAddress → Reader β}
    (hnext : ∀ mac, (next mac).Within m) : (mac field >>= next).Within (6 + m) :=
  .take_map_bind hnext

/-! ## Longer readers -/

/-- The reader reads what `first` reads and goes on from there. -/
def Extends (item : Reader β) (first : Reader α) : Prop :=
  ∃ next : α → Reader β, item = first >>= next

theorem Extends.map {γ : Type} {item : Reader β} {first : Reader α} (f : β → γ)
    (h : item.Extends first) : (f <$> item).Extends first := by
  obtain ⟨next, rfl⟩ := h
  exact ⟨fun a => f <$> next a, map_bind f first next⟩

theorem Extends.decode_eq_error {item : Reader β} {first : Reader α} {bytes : List UInt8}
    {fault : Fault} (h : item.Extends first) (hfault : first.decode bytes = .error fault) :
    item.decode bytes = .error fault := by
  obtain ⟨next, rfl⟩ := h
  rw [decode] at hfault
  rw [decode_bind]
  obtain ⟨answer, rest, hon⟩ : ∃ answer rest, first.on bytes = (answer, rest) := ⟨_, _, rfl⟩
  rw [hon] at hfault ⊢
  cases hfault
  rfl

end Reader

end CableCapture
