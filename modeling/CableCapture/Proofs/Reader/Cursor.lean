import CableCapture.Proofs.Reader.Positions

/-!
# Readers as cursors

A cursor keeps a whole buffer and a position in it. Its arithmetic is checked: a difference that
would be negative and a part that is not inside the buffer have no value. Over every run of
operations, faults in the middle included, a cursor and the readers answer alike, the cursor stays
inside its buffer, and the bytes that were read are those in front of its position.
-/

namespace CableCapture

structure Cursor where
  buffer : List UInt8
  position : Nat

namespace Cursor

/-! ## Operations -/

/-- What is read in one piece. -/
inductive Piece where
  | bytes (n : Nat)
  | uint8
  | uint16
  | int16
  | uint32
  | mac

/-- What an operation answers with. -/
inductive Value where
  | bytes (data : List UInt8)
  | uint8 (n : UInt8)
  | uint16 (n : UInt16)
  | int16 (n : Int16)
  | uint32 (n : UInt32)
  | mac (address : MacAddress)
  /-- Bytes behind their length. -/
  | sized (data : List UInt8)
  | nothing
deriving DecidableEq, Repr

/-- The bytes that a value is read from. -/
def Value.toBytes : Value → List UInt8
  | bytes data => data
  | uint8 n => [n]
  | uint16 n => BigEndian.ofUInt16 n
  | int16 n => BigEndian.ofInt16 n
  | uint32 n => BigEndian.ofUInt32 n
  | mac address => address.octets
  | sized data => declaredBytes data
  | nothing => []

/-- What an answer says about the bytes; a fault says nothing. -/
def spelled : Except Fault Value → List UInt8
  | .ok value => value.toBytes
  | .error _ => []

namespace Piece

def width : Piece → Nat
  | bytes n => n
  | uint8 => 1
  | uint16 | int16 => 2
  | uint32 => 4
  | mac => 6

/-- The value of as many bytes as the piece is wide. -/
def value : Piece → List UInt8 → Value
  | bytes _, front => .bytes front
  | uint8, front => .uint8 (front.headD 0)
  | uint16, front => .uint16 (BigEndian.toUInt16 front)
  | int16, front => .int16 (BigEndian.toInt16 front)
  | uint32, front => .uint32 (BigEndian.toUInt32 front)
  | mac, front => .mac ((MacAddress.ofOctets? front).getD .unset)

def reader (name : String) : Piece → Reader Value
  | bytes n => return .bytes (← Reader.take name n)
  | uint8 => return .uint8 (← Reader.uint8 name)
  | uint16 => return .uint16 (← Reader.uint16 name)
  | int16 => return .int16 (← Reader.int16 name)
  | uint32 => return .uint32 (← Reader.uint32 name)
  | mac => return .mac (← Reader.mac name)

theorem reader_eq (piece : Piece) (name : String) :
    piece.reader name =
      (Reader.take name piece.width >>= fun front => pure (piece.value front)) := by
  cases piece with
  | bytes n => rfl
  | uint8 | uint16 | int16 | uint32 | mac => exact bind_assoc ..

/-- No value is made up: it spells the bytes that it is read from. -/
theorem toBytes_value {piece : Piece} {front : List UInt8} (h : front.length = piece.width) :
    (piece.value front).toBytes = front := by
  cases piece with
  | bytes n => rfl
  | uint8 =>
    obtain ⟨b, rfl⟩ := List.length_eq_one_iff.1 h
    rfl
  | uint16 => exact BigEndian.ofUInt16_toUInt16 h
  | int16 => exact BigEndian.ofInt16_toInt16 h
  | uint32 => exact BigEndian.ofUInt32_toUInt32 h
  | mac =>
    have hsome : MacAddress.ofOctets? front = some ⟨front, h⟩ := dif_pos h
    rw [value, hsome]
    rfl

end Piece

inductive Operation where
  | read (name : String) (piece : Piece)
  /-- A length and as many bytes. -/
  | declared (name : String)
  | finish (context : String)

namespace Operation

def reader : Operation → Reader Value
  | .read name piece => piece.reader name
  | .declared name => return .sized (← Reader.declared name)
  | .finish context => do
    Reader.finish context
    return .nothing

/-- The bytes that the successful reads of an operation spell. A length in front of missing bytes is
such a read, although the operation fails. -/
def taken (unread : List UInt8) : Operation → List UInt8
  | .read name piece => spelled ((piece.reader name).decode unread)
  | .declared name =>
    match (Reader.uint32 name).on unread with
    | (.error _, _) => []
    | (.ok size, rest) =>
      BigEndian.ofUInt32 size ++
        spelled (((Reader.take name size.toNat).decode rest).map .bytes)
  | .finish _ => []

/-- The answers of operations one after another, and what they leave unread. A fault does not end
the run. -/
def run : List Operation → List UInt8 → List (Except Fault Value) × List UInt8
  | [], unread => ([], unread)
  | operation :: others, unread =>
    let (answer, rest) := operation.reader.on unread
    let (answers, left) := run others rest
    (answer :: answers, left)

/-- The bytes that the successful reads of a run spell, one after another. -/
def takenInRun : List Operation → List UInt8 → List UInt8
  | [], _ => []
  | operation :: others, unread =>
    operation.taken unread ++ takenInRun others (operation.reader.on unread).2

end Operation

/-! ## Cursors -/

/-- How many bytes are left, unless the position is behind the end. -/
def remaining? (cursor : Cursor) : Option Nat :=
  if cursor.position ≤ cursor.buffer.length then
    some (cursor.buffer.length - cursor.position)
  else none

/-- The next `n` bytes, if all of them are inside the buffer. -/
def slice? (cursor : Cursor) (n : Nat) : Option (List UInt8) :=
  if cursor.position + n ≤ cursor.buffer.length then
    some (cursor.buffer.extract cursor.position (cursor.position + n))
  else none

def take? (cursor : Cursor) (name : String) (n : Nat) :
    Option (Except Fault (List UInt8) × Cursor) := do
  let available ← cursor.remaining?
  if available < n then
    return (.error (.truncatedPayload name n available), cursor)
  else
    let front ← cursor.slice? n
    return (.ok front, { cursor with position := cursor.position + n })

def step? (cursor : Cursor) : Operation → Option (Except Fault Value × Cursor)
  | .read name piece => do
    let (answer, next) ← cursor.take? name piece.width
    return (answer.map piece.value, next)
  | .declared name => do
    match ← cursor.take? name 4 with
    | (.error fault, next) => return (.error fault, next)
    | (.ok front, next) =>
      let (answer, last) ← next.take? name (BigEndian.toUInt32 front).toNat
      return (answer.map .sized, last)
  | .finish context => do
    let available ← cursor.remaining?
    if available = 0 then
      return (.ok .nothing, cursor)
    else
      return (.error (.lengthMismatch (.trailing available context)), cursor)

def run? (cursor : Cursor) : List Operation → Option (List (Except Fault Value) × Cursor)
  | [] => some ([], cursor)
  | operation :: others => do
    let (answer, next) ← cursor.step? operation
    let (answers, last) ← next.run? others
    return (answer :: answers, last)

variable {buffer : List UInt8} {position n : Nat} {name : String}

theorem remaining?_of_within (within : position ≤ buffer.length) :
    remaining? ⟨buffer, position⟩ = some (buffer.length - position) :=
  if_pos within

theorem take?_of_fits (fits : position + n ≤ buffer.length) :
    take? ⟨buffer, position⟩ name n =
      some (.ok (buffer.extract position (position + n)), ⟨buffer, position + n⟩) := by
  have hleft : ¬ buffer.length - position < n := by omega
  simp only [take?, remaining?_of_within (Nat.le_of_add_right_le fits), slice?, if_pos fits,
    Option.bind_eq_bind, Option.bind_some, if_neg hleft, Option.pure_def]

theorem take?_of_lacks (within : position ≤ buffer.length) (lacks : buffer.length < position + n) :
    take? ⟨buffer, position⟩ name n =
      some (.error (.truncatedPayload name n (buffer.length - position)), ⟨buffer, position⟩) := by
  have hleft : buffer.length - position < n := by omega
  simp only [take?, remaining?_of_within within, Option.bind_eq_bind, Option.bind_some,
    if_pos hleft, Option.pure_def]

/-! ## One operation -/

/-- The size that four bytes at a position declare. -/
def sizeAt (buffer : List UInt8) (position : Nat) : Nat :=
  (uint32At buffer position).toNat

/-- What an operation answers at a position of a buffer, and the position behind it. -/
inductive Effect (buffer : List UInt8) (position : Nat) :
    Operation → Except Fault Value → Nat → Prop where
  | read (name : String) (piece : Piece) (fits : position + piece.width ≤ buffer.length) :
    Effect buffer position (.read name piece)
      (.ok (piece.value (buffer.extract position (position + piece.width))))
      (position + piece.width)
  | missing (name : String) (piece : Piece) (lacks : buffer.length < position + piece.width) :
    Effect buffer position (.read name piece)
      (.error (.truncatedPayload name piece.width (buffer.length - position))) position
  | declared (name : String) (fits : position + 4 + sizeAt buffer position ≤ buffer.length) :
    Effect buffer position (.declared name)
      (.ok (.sized (buffer.extract (position + 4) (position + 4 + sizeAt buffer position))))
      (position + 4 + sizeAt buffer position)
  | lengthMissing (name : String) (lacks : buffer.length < position + 4) :
    Effect buffer position (.declared name)
      (.error (.truncatedPayload name 4 (buffer.length - position))) position
  /-- The length stays read. -/
  | bodyMissing (name : String) (fits : position + 4 ≤ buffer.length)
    (lacks : buffer.length < position + 4 + sizeAt buffer position) :
    Effect buffer position (.declared name)
      (.error (.truncatedPayload name (sizeAt buffer position) (buffer.length - (position + 4))))
      (position + 4)
  | ended (context : String) (all : position = buffer.length) :
    Effect buffer position (.finish context) (.ok .nothing) position
  | trailing (context : String) (more : position < buffer.length) :
    Effect buffer position (.finish context)
      (.error (.lengthMismatch (.trailing (buffer.length - position) context))) position

/-- A reader and a cursor go from one position of a buffer to another. -/
structure Steps (buffer : List UInt8) (position : Nat) (operation : Operation)
    (answer : Except Fault Value) (after : Nat) : Prop where
  effect : Effect buffer position operation answer after
  forward : position ≤ after
  within : after ≤ buffer.length
  reads : operation.reader.on (buffer.drop position) = (answer, buffer.drop after)
  checked : step? ⟨buffer, position⟩ operation = some (answer, ⟨buffer, after⟩)
  taken : operation.taken (buffer.drop position) = buffer.extract position after
  /-- A value is made of all bytes that were passed. -/
  spells : ∀ value, answer = .ok value → value.toBytes = buffer.extract position after

section Steps

variable {buffer : List UInt8} {position n : Nat} {name : String}

theorem extract_self : buffer.extract position position = [] := by
  rw [List.extract_eq_take_drop, Nat.sub_self, List.take_zero]

/-- The part between two positions, from the front of what is left at the first one. -/
theorem extract_add : buffer.extract position (position + n) = (buffer.drop position).take n := by
  rw [List.extract_eq_take_drop, Nat.add_sub_cancel_left]

theorem extract_append_extract {start middle stop : Nat} (hstart : start ≤ middle)
    (hstop : middle ≤ stop) :
    buffer.extract start middle ++ buffer.extract middle stop = buffer.extract start stop := by
  obtain ⟨n, rfl⟩ := Nat.exists_eq_add_of_le hstart
  obtain ⟨m, rfl⟩ := Nat.exists_eq_add_of_le hstop
  rw [extract_add, extract_add, Nat.add_assoc, extract_add, List.take_add, List.drop_drop]

theorem on_take_of_fits (fits : position + n ≤ buffer.length) :
    (Reader.take name n).on (buffer.drop position) =
      (.ok (buffer.extract position (position + n)), buffer.drop (position + n)) := by
  rw [Reader.on_take, List.length_drop, if_pos (by omega), List.drop_drop, extract_add]

theorem on_take_of_lacks (within : position ≤ buffer.length)
    (lacks : buffer.length < position + n) :
    (Reader.take name n).on (buffer.drop position) =
      (.error (.truncatedPayload name n (buffer.length - position)), buffer.drop position) := by
  rw [Reader.on_take, List.length_drop, if_neg (by omega)]

theorem on_uint32_of_fits (fits : position + 4 ≤ buffer.length) :
    (Reader.uint32 name).on (buffer.drop position) =
      (.ok (uint32At buffer position), buffer.drop (position + 4)) :=
  (Reader.readsAt_uint32 name).on_drop buffer position fits

theorem ofUInt32_uint32At (fits : position + 4 ≤ buffer.length) :
    BigEndian.ofUInt32 (uint32At buffer position) = buffer.extract position (position + 4) :=
  BigEndian.ofUInt32_toUInt32 (length_extract fits)

theorem step?_declared (fits : position + 4 ≤ buffer.length) :
    step? ⟨buffer, position⟩ (.declared name) =
      (take? ⟨buffer, position + 4⟩ name (sizeAt buffer position)).map
        fun (answer, last) => (answer.map .sized, last) := by
  simp only [step?, take?_of_fits fits, Option.bind_eq_bind, Option.bind_some,
    Option.map_eq_bind]
  rfl

/-- A fault spells nothing. -/
theorem spells_of_error {fault : Fault} {part : List UInt8} (value : Value)
    (h : (.error fault : Except Fault Value) = .ok value) : value.toBytes = part := by
  cases h

theorem read_of_fits (name : String) (piece : Piece)
    (fits : position + piece.width ≤ buffer.length) :
    Steps buffer position (.read name piece)
      (.ok (piece.value (buffer.extract position (position + piece.width))))
      (position + piece.width) := by
  have hreads : (piece.reader name).on (buffer.drop position) =
      (.ok (piece.value (buffer.extract position (position + piece.width))),
        buffer.drop (position + piece.width)) := by
    rw [Piece.reader_eq, Reader.on_bind, on_take_of_fits fits]
    rfl
  have hspells := Piece.toBytes_value (length_extract fits)
  refine ⟨.read name piece fits, Nat.le_add_right .., fits, hreads, ?_, ?_, ?_⟩
  · simp only [step?, take?_of_fits fits, Option.bind_eq_bind, Option.bind_some]
    rfl
  · rw [Operation.taken, Reader.decode, hreads]
    exact hspells
  · rintro value ⟨⟩
    exact hspells

theorem read_of_lacks (name : String) (piece : Piece) (within : position ≤ buffer.length)
    (lacks : buffer.length < position + piece.width) :
    Steps buffer position (.read name piece)
      (.error (.truncatedPayload name piece.width (buffer.length - position))) position := by
  have hreads : (piece.reader name).on (buffer.drop position) =
      (.error (.truncatedPayload name piece.width (buffer.length - position)),
        buffer.drop position) := by
    rw [Piece.reader_eq, Reader.on_bind, on_take_of_lacks within lacks]
  refine ⟨.missing name piece lacks, Nat.le_refl _, within, hreads, ?_, ?_, spells_of_error⟩
  · simp only [step?, take?_of_lacks within lacks, Option.bind_eq_bind,
      Option.bind_some]
    rfl
  · rw [Operation.taken, Reader.decode, hreads, extract_self]
    rfl

theorem declared_of_fits (name : String)
    (fits : position + 4 + sizeAt buffer position ≤ buffer.length) :
    Steps buffer position (.declared name)
      (.ok (.sized (buffer.extract (position + 4) (position + 4 + sizeAt buffer position))))
      (position + 4 + sizeAt buffer position) := by
  have hlength : position + 4 ≤ buffer.length := Nat.le_of_add_right_le fits
  have hwhole : BigEndian.ofUInt32 (uint32At buffer position) ++
        buffer.extract (position + 4) (position + 4 + sizeAt buffer position) =
      buffer.extract position (position + 4 + sizeAt buffer position) := by
    rw [ofUInt32_uint32At hlength,
      extract_append_extract (Nat.le_add_right ..) (Nat.le_add_right ..)]
  have hbody : (Reader.take name (uint32At buffer position).toNat).on (buffer.drop (position + 4)) =
      (.ok (buffer.extract (position + 4) (position + 4 + sizeAt buffer position)),
        buffer.drop (position + 4 + sizeAt buffer position)) := on_take_of_fits fits
  refine ⟨.declared name fits, by omega, fits, ?_, ?_, ?_, ?_⟩
  · rw [Operation.reader, Reader.on_bind, Reader.declared, Reader.on_bind,
      on_uint32_of_fits hlength]
    dsimp only
    rw [hbody]
    rfl
  · rw [step?_declared hlength, take?_of_fits fits]
    rfl
  · rw [Operation.taken, on_uint32_of_fits hlength]
    dsimp only
    rw [Reader.decode, hbody]
    exact hwhole
  · rintro value ⟨⟩
    rw [Value.toBytes, declaredBytes, length_extract fits]
    exact hwhole

theorem declared_of_length_lacks (name : String) (within : position ≤ buffer.length)
    (lacks : buffer.length < position + 4) :
    Steps buffer position (.declared name)
      (.error (.truncatedPayload name 4 (buffer.length - position))) position := by
  have hlength : (Reader.uint32 name).on (buffer.drop position) =
      (.error (.truncatedPayload name 4 (buffer.length - position)), buffer.drop position) := by
    rw [Reader.uint32, Reader.on_bind, on_take_of_lacks within lacks]
  refine ⟨.lengthMissing name lacks, Nat.le_refl _, within, ?_, ?_, ?_, spells_of_error⟩
  · rw [Operation.reader, Reader.on_bind, Reader.declared, Reader.on_bind, hlength]
  · simp only [step?, take?_of_lacks within lacks, Option.bind_eq_bind,
      Option.bind_some]
    rfl
  · rw [Operation.taken, hlength, extract_self]

theorem declared_of_body_lacks (name : String) (fits : position + 4 ≤ buffer.length)
    (lacks : buffer.length < position + 4 + sizeAt buffer position) :
    Steps buffer position (.declared name)
      (.error (.truncatedPayload name (sizeAt buffer position) (buffer.length - (position + 4))))
      (position + 4) := by
  have hbody : (Reader.take name (uint32At buffer position).toNat).on (buffer.drop (position + 4)) =
      (.error (.truncatedPayload name (sizeAt buffer position) (buffer.length - (position + 4))),
        buffer.drop (position + 4)) := on_take_of_lacks fits lacks
  refine ⟨.bodyMissing name fits lacks, Nat.le_add_right .., fits, ?_, ?_, ?_, spells_of_error⟩
  · rw [Operation.reader, Reader.on_bind, Reader.declared, Reader.on_bind, on_uint32_of_fits fits]
    dsimp only
    rw [hbody]
  · rw [step?_declared fits, take?_of_lacks fits lacks]
    rfl
  · rw [Operation.taken, on_uint32_of_fits fits]
    dsimp only
    rw [Reader.decode, hbody, ← ofUInt32_uint32At fits]
    exact List.append_nil _

theorem finish_of_ended (context : String) (all : position = buffer.length) :
    Steps buffer position (.finish context) (.ok .nothing) position := by
  have hend : buffer.drop position = [] := List.drop_eq_nil_iff.2 all.ge
  have hleft : buffer.length - position = 0 := by omega
  refine ⟨.ended context all, Nat.le_refl _, all.le, ?_, ?_, extract_self.symm, ?_⟩
  · rw [Operation.reader, Reader.on_bind, Reader.on_finish, if_pos hend, hend]
    rfl
  · simp only [step?, remaining?_of_within all.le, Option.bind_eq_bind,
      Option.bind_some, if_pos hleft, Option.pure_def]
  · rintro value ⟨⟩
    exact extract_self.symm

theorem finish_of_trailing (context : String) (more : position < buffer.length) :
    Steps buffer position (.finish context)
      (.error (.lengthMismatch (.trailing (buffer.length - position) context))) position := by
  have hmore : buffer.drop position ≠ [] := mt List.drop_eq_nil_iff.1 (Nat.not_le_of_lt more)
  have hleft : buffer.length - position ≠ 0 := by omega
  refine ⟨.trailing context more, Nat.le_refl _, more.le, ?_, ?_, extract_self.symm, spells_of_error⟩
  · rw [Operation.reader, Reader.on_bind, Reader.on_finish, if_neg hmore, List.length_drop]
  · simp only [step?, remaining?_of_within more.le, Option.bind_eq_bind,
      Option.bind_some, if_neg hleft, Option.pure_def]

theorem steps (within : position ≤ buffer.length) (operation : Operation) :
    ∃ answer after, Steps buffer position operation answer after := by
  cases operation with
  | read name piece =>
    rcases Nat.lt_or_ge buffer.length (position + piece.width) with lacks | fits
    · exact ⟨_, _, read_of_lacks name piece within lacks⟩
    · exact ⟨_, _, read_of_fits name piece fits⟩
  | declared name =>
    rcases Nat.lt_or_ge buffer.length (position + 4) with lacks | fits
    · exact ⟨_, _, declared_of_length_lacks name within lacks⟩
    rcases Nat.lt_or_ge buffer.length (position + 4 + sizeAt buffer position) with lacks | more
    · exact ⟨_, _, declared_of_body_lacks name fits lacks⟩
    · exact ⟨_, _, declared_of_fits name more⟩
  | finish context =>
    rcases Nat.eq_or_lt_of_le within with all | more
    · exact ⟨_, _, finish_of_ended context all⟩
    · exact ⟨_, _, finish_of_trailing context more⟩

end Steps

/-! ## Runs -/

/-- How a run over a buffer stands when a cursor is at a position. -/
structure Accounted (buffer : List UInt8) (operations : List Operation) (position : Nat) :
    Prop where
  within : position ≤ buffer.length
  unread : (Operation.run operations buffer).2 = buffer.drop position
  /-- No difference was negative and no part outside of the buffer. -/
  checked : run? ⟨buffer, 0⟩ operations =
    some ((Operation.run operations buffer).1, ⟨buffer, position⟩)
  taken : Operation.takenInRun operations buffer = buffer.take position
  /-- Whatever comes next is one of the effects. -/
  next : ∀ operation, ∃ answer after, Steps buffer position operation answer after
  ended : ∀ context,
    (Reader.finish context).decode (Operation.run operations buffer).2 = .ok () ↔
      Operation.takenInRun operations buffer = buffer

/-- From any position on, a run only goes forward, and reader and cursor go together. -/
theorem run_from {buffer : List UInt8} (operations : List Operation) {position : Nat}
    (within : position ≤ buffer.length) :
    ∃ after, position ≤ after ∧ after ≤ buffer.length ∧
      (Operation.run operations (buffer.drop position)).2 = buffer.drop after ∧
      run? ⟨buffer, position⟩ operations =
        some ((Operation.run operations (buffer.drop position)).1, ⟨buffer, after⟩) ∧
      Operation.takenInRun operations (buffer.drop position) = buffer.extract position after := by
  induction operations generalizing position with
  | nil =>
    exact ⟨position, Nat.le_refl _, within, rfl, rfl, extract_self.symm⟩
  | cons operation others ih =>
    -- A fault may have moved the position, so the rest of the run starts where the step ended.
    obtain ⟨answer, middle, step⟩ := steps within operation
    obtain ⟨after, hmiddle, hafter, hunread, hchecked, htaken⟩ := ih step.within
    refine ⟨after, Nat.le_trans step.forward hmiddle, hafter, ?_, ?_, ?_⟩
    · rw [Operation.run, step.reads, hunread]
    · rw [run?, step.checked, Operation.run, step.reads]
      simp only [Option.bind_eq_bind, Option.bind_some, hchecked]
      rfl
    · rw [Operation.takenInRun, step.taken, step.reads, htaken,
        extract_append_extract step.forward hmiddle]

/-- Every run of operations over every buffer is accounted for. -/
theorem accounts_for_bytes (buffer : List UInt8) (operations : List Operation) :
    ∃ position, Accounted buffer operations position := by
  obtain ⟨position, -, within, hunread, hchecked, htaken⟩ := run_from operations (Nat.zero_le _)
  rw [List.drop_zero] at hunread hchecked htaken
  rw [List.extract_eq_take_drop, List.drop_zero, Nat.sub_zero] at htaken
  refine ⟨position, within, hunread, hchecked, htaken, steps within, fun context => ?_⟩
  have hfinish : (Reader.finish context).decode (buffer.drop position) = .ok () ↔
      buffer.drop position = [] := by
    rw [Reader.decode, Reader.on_finish]
    split <;> simp [*]
  rw [hunread, hfinish, htaken, List.drop_eq_nil_iff]
  constructor
  · exact List.take_of_length_le
  · intro hall
    have hlen := congrArg List.length hall
    rw [List.length_take] at hlen
    omega

/-- The length of missing bytes stays read, so the next operation finds the byte behind it. -/
example :
    Operation.run [.declared "data_len", .read "rest" .uint8, .finish "all"] [0, 0, 0, 5, 0xaa] =
      ([.error (.truncatedPayload "data_len" 5 1), .ok (.uint8 0xaa), .ok .nothing], []) := by
  rfl

end Cursor

end CableCapture
