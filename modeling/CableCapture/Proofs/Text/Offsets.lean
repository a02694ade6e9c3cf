import CableCapture.Proofs.Text.Digits
import CableCapture.Text.Utf8

/-!
# Texts cut at byte offsets

A text can be cut at an offset in its bytes where one of its characters ends. In a text of digits that
is so everywhere, and the pairs of digits between even offsets are the bytes that the digits spell.
-/

namespace CableCapture

namespace Utf8

/-- The characters in front of an offset and those behind it. Nothing if the offset lies inside a
character or beyond the text. -/
def splitAt? : ℕ → List Char → Option (List Char × List Char)
  | 0, cs => some ([], cs)
  | _ + 1, [] => none
  | n + 1, c :: cs =>
    if c.utf8Size ≤ n + 1 then
      (splitAt? (n + 1 - c.utf8Size) cs).map fun (front, back) => (c :: front, back)
    else none

/-- The characters between two offsets. -/
def slice? (cs : List Char) (start stop : ℕ) : Option (List Char) := do
  let (front, _) ← splitAt? stop cs
  let (_, middle) ← splitAt? start front
  return middle

variable {cs front back : List Char} {n : ℕ}

theorem length_encode_cons (c : Char) (cs : List Char) :
    (encode (c :: cs)).length = c.utf8Size + (encode cs).length := by
  rw [encode, List.flatMap_cons, List.length_append, String.length_utf8EncodeChar]
  rfl

theorem length_encode_of_ascii (h : ∀ c ∈ cs, c.toNat < 128) : (encode cs).length = cs.length := by
  induction cs with
  | nil => rfl
  | cons c rest ih =>
    obtain ⟨hc, hrest⟩ := List.forall_mem_cons.1 h
    have hsize : c.utf8Size = 1 :=
      Char.utf8Size_eq_one_iff.2 (UInt32.le_iff_toNat_le.2 (Nat.le_of_lt_succ hc))
    rw [length_encode_cons, hsize, ih hrest, List.length_cons, Nat.add_comm]

/-- The offsets at which a text can be cut are the lengths of what it starts with. -/
theorem splitAt?_length_encode (front back : List Char) :
    splitAt? (encode front).length (front ++ back) = some (front, back) := by
  induction front with
  | nil => simp [encode, splitAt?]
  | cons c rest ih =>
    have hsize := c.utf8Size_pos
    obtain ⟨n, hn⟩ : ∃ n, (encode (c :: rest)).length = n + 1 :=
      ⟨c.utf8Size + (encode rest).length - 1, by rw [length_encode_cons]; omega⟩
    have hbehind : n + 1 - c.utf8Size = (encode rest).length := by
      rw [← hn, length_encode_cons]
      omega
    have hfits : c.utf8Size ≤ n + 1 := by
      rw [← hn, length_encode_cons]
      omega
    rw [hn, List.cons_append, splitAt?, if_pos hfits, hbehind, ih, Option.map_some]

theorem eq_append_of_splitAt? (h : splitAt? n cs = some (front, back)) :
    cs = front ++ back ∧ (encode front).length = n := by
  induction cs generalizing n front with
  | nil =>
    cases n with
    | zero =>
      cases h
      exact ⟨rfl, rfl⟩
    | succ n => cases h
  | cons c rest ih =>
    cases n with
    | zero =>
      cases h
      exact ⟨rfl, rfl⟩
    | succ n =>
      rw [splitAt?] at h
      split at h
      · rename_i hfits
        obtain ⟨⟨tail, back'⟩, hsplit, hpair⟩ := Option.map_eq_some_iff.1 h
        cases hpair
        obtain ⟨rfl, hlength⟩ := ih hsplit
        refine ⟨rfl, ?_⟩
        rw [length_encode_cons, hlength]
        omega
      · cases h

theorem splitAt?_eq_some :
    splitAt? n cs = some (front, back) ↔ cs = front ++ back ∧ (encode front).length = n := by
  constructor
  · exact eq_append_of_splitAt?
  · rintro ⟨rfl, rfl⟩
    exact splitAt?_length_encode front back

/-- A text of one-byte characters can be cut anywhere. -/
theorem slice?_of_ascii (h : ∀ c ∈ cs, c.toNat < 128) {start count : ℕ}
    (hcs : start + count ≤ cs.length) :
    slice? cs start (start + count) = some ((cs.drop start).take count) := by
  -- Offsets count bytes and places count characters. Here they are the same.
  have htake : ∀ n ≤ cs.length, (encode (cs.take n)).length = n := fun n hn => by
    rw [length_encode_of_ascii fun c hc => h c (List.mem_of_mem_take hc), List.length_take]
    omega
  have hstop : splitAt? (start + count) cs =
      some (cs.take (start + count), cs.drop (start + count)) :=
    splitAt?_eq_some.2 ⟨(List.take_append_drop _ _).symm, htake _ hcs⟩
  have hstart : splitAt? start (cs.take (start + count)) =
      some (cs.take start, (cs.drop start).take count) :=
    splitAt?_eq_some.2 ⟨List.take_add, htake _ (by omega)⟩
  unfold slice?
  rw [hstop]
  change (splitAt? start (cs.take (start + count)) >>= fun (_, middle) => some middle) = _
  rw [hstart]
  rfl

end Utf8

namespace Hex

/-- The byte that a number in digits of base sixteen is, which may follow a plus sign. -/
def byteOf? (cs : List Char) : Option UInt8 :=
  let digits := if cs.head? = some '+' then cs.tail else cs
  if digits.isEmpty then none
  else do
    let n ← digits.foldlM (fun n c => (digit? c).map (16 * n + ·)) 0
    if n < 256 then some (UInt8.ofNat n) else none

variable {cs : List Char} {bytes : List UInt8}

theorem byteOf?_pair {high low : Char} {h l : ℕ} (hhigh : digit? high = some h)
    (hlow : digit? low = some l) : byteOf? [high, low] = some (UInt8.ofNat (16 * h + l)) := by
  have hplus : high ≠ '+' := by
    rintro rfl
    cases hhigh
  have hbound : 16 * h + l < 256 := by
    have := (digit?_eq_some.1 hhigh).1
    have := (digit?_eq_some.1 hlow).1
    omega
  simp [byteOf?, hplus, hhigh, hlow, hbound]

/-- The pairs of digits at even places are the bytes that the digits spell. -/
theorem byteOf?_slice (h : toBytes? cs = some bytes) {i : ℕ} (hi : i < bytes.length) :
    byteOf? ((cs.drop (2 * i)).take 2) = some bytes[i] := by
  induction cs using toBytes?.induct generalizing bytes i with
  | case1 =>
    rw [← Option.some.inj h] at hi
    exact absurd hi (Nat.not_lt_zero i)
  | case2 c => cases h
  | case3 high low rest ih =>
    simp only [toBytes?, Option.bind_eq_bind, Option.bind_eq_some_iff, Option.pure_def,
      Option.some.injEq] at h
    obtain ⟨v, hv, w, hw, tail, htail, rfl⟩ := h
    cases i with
    | zero => exact byteOf?_pair hv hw
    | succ i => exact ih htail (Nat.lt_of_succ_lt_succ hi)

end Hex

end CableCapture
