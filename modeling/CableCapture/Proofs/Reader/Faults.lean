import CableCapture.Proofs.Reader.Fields

/-!
# What readers fail with

A reader fails with the faults of its steps and no others. Fields fail for want of bytes and the end
of a payload fails on bytes that are left, so any other fault comes from an answer that is checked
or from a fault that is thrown.
-/

namespace CableCapture

/-- What may be wrong with a payload of a kind: its length, a length in it, or the type of a scheme
in a modulation profile. -/
inductive Fault.OfPayload : CaptureKind → Fault → Prop where
  | truncated (kind : CaptureKind) (field : String) (needed available : Nat) :
    OfPayload kind (.truncatedPayload field needed available)
  | length (kind : CaptureKind) (cause : LengthFault) : OfPayload kind (.lengthMismatch cause)
  | scheme (code : UInt8) : OfPayload .modulationProfile (.corrupted (.unknownScheme code))

namespace Reader

variable {α β : Type} {kind : CaptureKind}

/-- Whatever the bytes, the reader fails with one of these faults if at all. -/
def FailsWith (faults : Fault → Prop) (item : Reader α) : Prop :=
  ∀ (bytes : List UInt8) (fault : Fault), item.decode bytes = .error fault → faults fault

variable {faults : Fault → Prop}

/-! ## Single steps -/

theorem FailsWith.pure (a : α) : FailsWith faults (Pure.pure a) := by
  intro bytes fault h
  cases h

theorem FailsWith.throw {fault : Fault} (h : faults fault) :
    FailsWith faults (MonadExcept.throw fault : Reader α) := by
  intro bytes other hother
  rw [← Except.error.inj hother]
  exact h

theorem FailsWith.check {answer : Except Fault α}
    (h : ∀ fault, answer = .error fault → faults fault) : FailsWith faults (check answer) :=
  fun _ fault hfault => h fault hfault

theorem FailsWith.take (field : String) (n : Nat) :
    FailsWith (Fault.OfPayload kind) (take field n) := by
  intro bytes fault h
  rw [decode, on_take] at h
  split at h
  · cases h
  · rw [← Except.error.inj h]
    exact .truncated kind field n bytes.length

theorem FailsWith.finish (context : String) :
    FailsWith (Fault.OfPayload kind) (finish context) := by
  intro bytes fault h
  rw [decode, on_finish] at h
  split at h
  · cases h
  · rw [← Except.error.inj h]
    exact .length kind _

/-! ## Sequences -/

section Sequence

variable {first : Reader α}

theorem FailsWith.bind {next : α → Reader β} (hfirst : first.FailsWith faults)
    (hnext : ∀ a, (next a).FailsWith faults) : (first >>= next).FailsWith faults := by
  intro bytes fault h
  rw [decode_bind] at h
  cases hon : first.on bytes with
  | mk answer rest =>
    rw [hon] at h
    cases answer with
    | error cause =>
      have hcause : first.decode bytes = .error cause := by rw [decode, hon]
      rw [← Except.error.inj h]
      exact hfirst bytes cause hcause
    | ok a => exact hnext a rest fault h

theorem FailsWith.map (f : α → β) (h : first.FailsWith faults) :
    (f <$> first).FailsWith faults := by
  rw [map_eq_pure_bind]
  exact h.bind fun a => .pure (f a)

theorem FailsWith.uint8 (field : String) : FailsWith (Fault.OfPayload kind) (uint8 field) :=
  .bind (.take field 1) fun _ => .pure _

theorem FailsWith.uint16 (field : String) : FailsWith (Fault.OfPayload kind) (uint16 field) :=
  .bind (.take field 2) fun _ => .pure _

theorem FailsWith.uint32 (field : String) : FailsWith (Fault.OfPayload kind) (uint32 field) :=
  .bind (.take field 4) fun _ => .pure _

theorem FailsWith.mac (field : String) : FailsWith (Fault.OfPayload kind) (mac field) :=
  .bind (.take field 6) fun _ => .pure _

theorem FailsWith.declared (field : String) : FailsWith (Fault.OfPayload kind) (declared field) :=
  .bind (.uint32 field) fun size => .take field size.toNat

end Sequence

/-! ## Items one after another -/

section Items

variable {item : Reader α}

theorem FailsWith.times (h : item.FailsWith faults) (n : Nat) :
    (times item n).FailsWith faults := by
  induction n with
  | zero => exact .pure []
  | succ n ih => exact .bind h fun _ => .bind ih fun _ => .pure _

theorem FailsWith.untilEnd (h : item.FailsWith faults) (consumes : item.Consumes)
    {bytes : List UInt8} {fault : Fault}
    (hfault : untilEnd item @consumes bytes = .error fault) : faults fault := by
  induction hlen : bytes.length using Nat.strongRecOn generalizing bytes with
  | ind n ih =>
    by_cases hbytes : bytes = []
    · rw [hbytes, untilEnd_nil @consumes] at hfault
      cases hfault
    · cases hon : item.on bytes with
      | mk answer rest =>
        cases answer with
        | error cause =>
          have hcause : item.decode bytes = .error cause := by rw [decode, hon]
          rw [untilEnd_of_error @consumes hbytes hon] at hfault
          rw [← Except.error.inj hfault]
          exact h bytes cause hcause
        | ok first =>
          have hshorter : rest.length < n := hlen ▸ consumes hon
          rw [untilEnd_of_ok @consumes hon] at hfault
          cases hrest : Reader.untilEnd item @consumes rest with
          | error cause =>
            rw [hrest] at hfault
            rw [Except.error.inj hfault] at hrest
            exact ih _ hshorter hrest rfl
          | ok others =>
            rw [hrest] at hfault
            cases hfault

end Items

end Reader

end CableCapture
