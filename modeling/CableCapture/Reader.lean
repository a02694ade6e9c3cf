import CableCapture.Bytes.Word
import CableCapture.Fault

/-!
# Readers

A reader takes fields from the front of a byte string and keeps what it has not read, also when it
fails. Every field has a name, which a fault reports. A read that asks for more bytes than are left
takes none of them.
-/

namespace CableCapture

/-- Reads an `α` from unread bytes, which survive a fault. -/
abbrev Reader (α : Type) := ExceptT Fault (StateM (List UInt8)) α

namespace Reader

/-- The answer and the unread bytes. -/
def on {α : Type} (reader : Reader α) (bytes : List UInt8) : Except Fault α × List UInt8 :=
  reader.run.run bytes

/-- The answer alone. -/
def decode {α : Type} (reader : Reader α) (bytes : List UInt8) : Except Fault α :=
  (reader.on bytes).1

-- ---------------------------------------------------------------------------
-- Fields
-- ---------------------------------------------------------------------------

/-- The next `n` bytes. -/
def take (field : String) (n : Nat) : Reader (List UInt8) := do
  let unread ← get
  let front := unread.take n
  if front.length = n then
    set (unread.drop n)
    return front
  else
    throw (.truncatedPayload field n front.length)

def uint8 (field : String) : Reader UInt8 := do
  let bytes ← take field 1
  return bytes.headD 0

def uint16 (field : String) : Reader UInt16 := do
  let bytes ← take field 2
  return BigEndian.toUInt16 bytes

def int16 (field : String) : Reader Int16 := do
  let bytes ← take field 2
  return BigEndian.toInt16 bytes

def uint32 (field : String) : Reader UInt32 := do
  let bytes ← take field 4
  return BigEndian.toUInt32 bytes

def mac (field : String) : Reader MacAddress := do
  let bytes ← take field 6
  return (MacAddress.ofOctets? bytes).getD .unset

/-- A four-byte length and as many bytes. The length stays read when the bytes are missing. -/
def declared (field : String) : Reader (List UInt8) := do
  let size ← uint32 field
  take field size.toNat

/-- Succeeds when nothing is left; the context says what came before. -/
def finish (context : String) : Reader Unit := do
  let unread ← get
  if unread = [] then return () else throw (.lengthMismatch (.trailing unread.length context))

/-- An answer that does not depend on the unread bytes. -/
def check {α : Type} (answer : Except Fault α) : Reader α :=
  ExceptT.mk (pure answer)

-- ---------------------------------------------------------------------------
-- Repetition
-- ---------------------------------------------------------------------------

/-- The same item `n` times. -/
def times {α : Type} (item : Reader α) : Nat → Reader (List α)
  | 0 => return []
  | n + 1 => do
    let first ← item
    let rest ← times item n
    return first :: rest

/-- A successful read leaves fewer bytes than it found. -/
def Consumes {α : Type} (item : Reader α) : Prop :=
  ∀ {bytes : List UInt8} {a : α} {rest : List UInt8},
    item.on bytes = (.ok a, rest) → rest.length < bytes.length

/-- A successful read leaves no more bytes than it found. -/
def Shrinks {α : Type} (item : Reader α) : Prop :=
  ∀ {bytes : List UInt8} {a : α} {rest : List UInt8},
    item.on bytes = (.ok a, rest) → rest.length ≤ bytes.length

/-- Items one after another until no byte is left. -/
def untilEnd {α : Type} (item : Reader α) (consumes : item.Consumes) (bytes : List UInt8) :
    Except Fault (List α) :=
  if bytes = [] then .ok []
  else
    match _ : item.on bytes with
    | (.error fault, _) => .error fault
    | (.ok first, rest) => do
      let others ← untilEnd item consumes rest
      return first :: others
termination_by bytes.length
decreasing_by exact consumes (by assumption)

-- ---------------------------------------------------------------------------
-- What reading leaves
-- ---------------------------------------------------------------------------

@[simp] theorem on_pure {α : Type} (a : α) (bytes : List UInt8) :
    Reader.on (pure a) bytes = (.ok a, bytes) := rfl

@[simp] theorem on_throw {α : Type} (fault : Fault) (bytes : List UInt8) :
    Reader.on (throw fault : Reader α) bytes = (.error fault, bytes) := rfl

@[simp] theorem on_check {α : Type} (answer : Except Fault α) (bytes : List UInt8) :
    (check answer).on bytes = (answer, bytes) := rfl

theorem on_bind {α β : Type} (reader : Reader α) (next : α → Reader β) (bytes : List UInt8) :
    (reader >>= next).on bytes =
      match reader.on bytes with
      | (.ok a, rest) => (next a).on rest
      | (.error fault, rest) => (.error fault, rest) := by
  simp only [on, ExceptT.run_bind, StateT.run_bind]
  cases h : reader.run.run bytes with
  | mk answer rest => cases answer <;> rfl

theorem on_take (field : String) (n : Nat) (bytes : List UInt8) :
    (take field n).on bytes =
      if n ≤ bytes.length then (.ok (bytes.take n), bytes.drop n)
      else (.error (.truncatedPayload field n bytes.length), bytes) := by
  have hon : (take field n).on bytes =
      Reader.on
        (if (bytes.take n).length = n then do
            set (bytes.drop n)
            return bytes.take n
          else throw (.truncatedPayload field n (bytes.take n).length)) bytes := rfl
  have hlen : (bytes.take n).length = n ↔ n ≤ bytes.length := by
    rw [List.length_take]
    omega
  rw [hon]
  by_cases h : n ≤ bytes.length
  · rw [if_pos (hlen.2 h), if_pos h]
    rfl
  · rw [if_neg (mt hlen.1 h), if_neg h, List.take_of_length_le (by omega)]
    rfl

theorem Shrinks.pure {α : Type} (a : α) : Shrinks (Pure.pure a : Reader α) := by
  intro bytes b rest h
  simp only [on_pure, Prod.mk.injEq] at h
  simp [h.2]

theorem Shrinks.throw {α : Type} (fault : Fault) :
    Shrinks (MonadExcept.throw fault : Reader α) := by
  intro bytes a rest h
  simp at h

theorem Shrinks.check {α : Type} (answer : Except Fault α) : (check answer).Shrinks := by
  intro bytes a rest h
  simp only [on_check, Prod.mk.injEq] at h
  simp [h.2]

theorem Shrinks.bind {α β : Type} {reader : Reader α} {next : α → Reader β}
    (first : reader.Shrinks) (second : ∀ a, (next a).Shrinks) : (reader >>= next).Shrinks := by
  intro bytes b rest h
  rw [on_bind] at h
  split at h
  · rename_i a middle hfirst
    exact Nat.le_trans (second a h) (first hfirst)
  · simp at h

theorem Shrinks.take (field : String) (n : Nat) : (take field n).Shrinks := by
  intro bytes a rest h
  rw [on_take] at h
  split at h
  · simp only [Prod.mk.injEq] at h
    simp [← h.2]
  · simp at h

theorem Consumes.bind {α β : Type} {reader : Reader α} {next : α → Reader β}
    (first : reader.Consumes) (second : ∀ a, (next a).Shrinks) : (reader >>= next).Consumes := by
  intro bytes b rest h
  rw [on_bind] at h
  split at h
  · rename_i a middle hfirst
    exact Nat.lt_of_le_of_lt (second a h) (first hfirst)
  · simp at h

theorem Consumes.take (field : String) {n : Nat} (h : 0 < n) : (take field n).Consumes := by
  intro bytes a rest hread
  rw [on_take] at hread
  split at hread
  · simp only [Prod.mk.injEq] at hread
    simp only [← hread.2, List.length_drop]
    omega
  · simp at hread

theorem Shrinks.uint8 (field : String) : (uint8 field).Shrinks :=
  Shrinks.bind (Shrinks.take field 1) fun _ => Shrinks.pure _

theorem Shrinks.uint16 (field : String) : (uint16 field).Shrinks :=
  Shrinks.bind (Shrinks.take field 2) fun _ => Shrinks.pure _

theorem Consumes.uint8 (field : String) : (uint8 field).Consumes :=
  Consumes.bind (Consumes.take field (by decide)) fun _ => Shrinks.pure _

end Reader

/-- A four-byte length and the bytes, as `Reader.declared` takes them. -/
def declaredBytes (data : List UInt8) : List UInt8 :=
  BigEndian.ofNat 4 data.length ++ data

end CableCapture
