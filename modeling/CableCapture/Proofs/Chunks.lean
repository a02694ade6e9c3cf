import CableCapture.Bytes.Chunks

/-!
# Pieces and what they stand for

Items of one width, written one after another, are cut into the same items again. A byte string that is
a whole number of pieces comes back from the values of its pieces, each of which is read from its own
position.
-/

namespace CableCapture

variable {α β : Type} {n : Nat}

theorem length_of_mem_chunksOf (hn : 0 < n) {xs : List α} (hxs : xs.length % n = 0) :
    ∀ piece ∈ chunksOf n xs, piece.length = n := by
  induction h : xs.length using Nat.strongRecOn generalizing xs with
  | ind k ih =>
    by_cases hnil : xs = []
    · simp [hnil]
    · have hpos : 0 < xs.length := List.length_pos_iff.2 hnil
      have hle : n ≤ xs.length := Nat.le_of_dvd hpos (Nat.dvd_of_mod_eq_zero hxs)
      rw [chunksOf_of_pos hn hnil, List.forall_mem_cons]
      constructor
      · rw [List.length_take]
        omega
      · apply ih (xs.drop n).length _ _ rfl
        · rw [List.length_drop]
          omega
        · rw [List.length_drop, ← Nat.mod_eq_sub_mod hle]
          exact hxs

/-- A shorter last piece counts as one. -/
theorem length_chunksOf_ceil (hn : 0 < n) (xs : List α) :
    (chunksOf n xs).length = (xs.length + n - 1) / n := by
  induction h : xs.length using Nat.strongRecOn generalizing xs with
  | ind k ih =>
    by_cases hnil : xs = []
    · subst hnil
      rw [chunksOf_nil, List.length_nil, ← h, List.length_nil, Nat.zero_add]
      exact (Nat.div_eq_of_lt (Nat.sub_one_lt_of_lt hn)).symm
    · have hpos : 0 < xs.length := List.length_pos_iff.2 hnil
      have hshorter : (xs.drop n).length < k := by
        rw [List.length_drop]
        omega
      rw [chunksOf_of_pos hn hnil, List.length_cons, ih _ hshorter _ rfl, List.length_drop, h]
      by_cases hle : n ≤ k
      · have hmore : k + n - 1 = k - n + n - 1 + n := by omega
        rw [hmore, Nat.add_div_right _ hn]
      · have hnone : k - n + n - 1 = n - 1 := by omega
        have hone : k + n - 1 = k - 1 + n := by omega
        rw [hnone, hone, Nat.add_div_right _ hn, Nat.div_eq_of_lt (by omega),
          Nat.div_eq_of_lt (by omega)]

theorem length_chunksOf (hn : 0 < n) {xs : List α} (hxs : xs.length % n = 0) :
    (chunksOf n xs).length = xs.length / n := by
  obtain ⟨k, hk⟩ := Nat.dvd_of_mod_eq_zero hxs
  rw [length_chunksOf_ceil hn, hk, Nat.mul_div_cancel_left _ hn, Nat.add_sub_assoc hn,
    Nat.mul_add_div hn, Nat.div_eq_of_lt (by omega), Nat.add_zero]

theorem getElem?_chunksOf (hn : 0 < n) {xs : List α} {i : Nat}
    (hi : n * i < xs.length) :
    (chunksOf n xs)[i]? = some (xs.extract (n * i) (n * i + n)) := by
  induction i generalizing xs with
  | zero =>
    have hnil : xs ≠ [] := List.ne_nil_of_length_pos (by omega)
    rw [chunksOf_of_pos hn hnil]
    simp [List.extract_eq_take_drop]
  | succ i ih =>
    have hnil : xs ≠ [] := List.ne_nil_of_length_pos (by omega)
    have hrest : n * i < (xs.drop n).length := by
      rw [Nat.mul_succ] at hi
      rw [List.length_drop]
      omega
    rw [chunksOf_of_pos hn hnil, List.getElem?_cons_succ, ih hrest]
    simp only [List.extract_eq_take_drop, List.drop_drop, Nat.add_sub_cancel_left, Nat.mul_succ,
      Nat.add_comm n]

/-- Only the last piece can be shorter than the others, and it is not empty. -/
theorem length_of_getElem?_chunksOf (hn : 0 < n) {xs piece : List α} {i : Nat}
    (h : (chunksOf n xs)[i]? = some piece) :
    n * i < xs.length ∧ piece.length = min n (xs.length - n * i) := by
  have hi : n * i < xs.length := by
    obtain ⟨hlt, -⟩ := List.getElem?_eq_some_iff.1 h
    rw [length_chunksOf_ceil hn, Nat.lt_div_iff_mul_lt hn] at hlt
    rw [Nat.mul_comm]
    omega
  rw [getElem?_chunksOf hn hi] at h
  refine ⟨hi, ?_⟩
  rw [← Option.some.inj h, List.extract_eq_take_drop, List.length_take, List.length_drop,
    Nat.add_sub_cancel_left]

theorem length_extract {xs : List α} {start : Nat} (hfits : start + n ≤ xs.length) :
    (xs.extract start (start + n)).length = n := by
  simp only [List.extract_eq_take_drop, List.length_take, List.length_drop]
  omega

/-- What undoes the reading of every piece undoes the reading of all of them. -/
theorem flatMap_map_chunksOf (hn : 0 < n) {xs : List α} (hxs : xs.length % n = 0)
    {read : List α → β} {write : β → List α}
    (h : ∀ piece, piece.length = n → write (read piece) = piece) :
    ((chunksOf n xs).map read).flatMap write = xs := by
  have hpieces : (chunksOf n xs).map (write ∘ read) = (chunksOf n xs).map id := by
    apply List.map_congr_left
    intro piece hmem
    exact h piece (length_of_mem_chunksOf hn hxs piece hmem)
  rw [List.flatMap_def, List.map_map, hpieces, List.map_id, flatten_chunksOf hn]

theorem chunksOf_flatMap (hn : 0 < n) {write : β → List α} (h : ∀ b, (write b).length = n)
    (bs : List β) : chunksOf n (bs.flatMap write) = bs.map write := by
  induction bs with
  | nil => simp
  | cons b bs ih =>
    have hne : write b ++ bs.flatMap write ≠ [] := by
      intro hnil
      have hlen := congrArg List.length hnil
      rw [List.length_append, h, List.length_nil] at hlen
      omega
    rw [List.flatMap_cons, chunksOf_of_pos hn hne, List.take_left' (h b), List.drop_left' (h b), ih,
      List.map_cons]

theorem length_flatMap_of_length {write : β → List α} (h : ∀ b, (write b).length = n)
    (bs : List β) : (bs.flatMap write).length = n * bs.length := by
  induction bs with
  | nil => simp
  | cons b bs ih =>
    rw [List.flatMap_cons, List.length_append, h, ih, List.length_cons, Nat.mul_succ, Nat.add_comm]

/-- Where all blocks but the last one are of one length, an index is that of a block and one in it. -/
theorem getElem?_flatMap_of_full (hn : 0 < n) {g : β → List α} {blocks : List β}
    (hle : ∀ b ∈ blocks, (g b).length ≤ n)
    (hfull : ∀ i b, blocks[i]? = some b → i + 1 < blocks.length → (g b).length = n) (k : Nat) :
    (blocks.flatMap g)[k]? = blocks[k / n]?.bind fun b => (g b)[k % n]? := by
  induction blocks generalizing k with
  | nil => simp
  | cons b rest ih =>
    have hb := hle b List.mem_cons_self
    have hrest := ih (fun c hc => hle c (List.mem_cons_of_mem b hc)) fun i c hc hi =>
      hfull (i + 1) c hc (by rw [List.length_cons]; omega)
    rw [List.flatMap_cons, List.getElem?_append]
    by_cases hk : k < n
    · rw [Nat.div_eq_of_lt hk, Nat.mod_eq_of_lt hk, List.getElem?_cons_zero, Option.bind_some]
      split
      · rfl
      · rename_i hout
        -- behind a block that is not full there is no other one
        cases rest with
        | nil => rw [List.flatMap_nil, List.getElem?_nil, List.getElem?_eq_none (Nat.not_lt.1 hout)]
        | cons c others =>
          have hlength := hfull 0 b rfl (by simp)
          omega
    · have hnext : k / n = (k - n) / n + 1 := by
        rw [← Nat.add_div_right _ hn, Nat.sub_add_cancel (Nat.not_lt.1 hk)]
      rw [if_neg (by omega), hnext, List.getElem?_cons_succ, Nat.mod_eq_sub_mod (Nat.not_lt.1 hk)]
      cases rest with
      | nil => simp
      | cons c others =>
        have hlength := hfull 0 b rfl (by simp)
        rw [hlength]
        exact hrest (k - n)

/-! ## Items of a block -/

/-- The items of a block of items of one width, each of them read from its own bytes. -/
structure InOrder {α : Type} (width : Nat) (read : List UInt8 → α) (block : List UInt8)
    (items : List α) : Prop where
  length_eq : items.length = block.length / width
  getElem_eq : ∀ (i : Nat) (hi : i < items.length),
    items[i] = read (block.extract (width * i) (width * i + width))

section Block

variable {width : Nat} {read : List UInt8 → α} {block : List UInt8} {items : List α}

theorem inOrder_chunksOf (hwidth : 0 < width) (hwhole : width ∣ block.length) :
    InOrder width read block ((chunksOf width block).map read) where
  length_eq := by
    rw [List.length_map, length_chunksOf hwidth (Nat.mod_eq_zero_of_dvd hwhole)]
  getElem_eq := by
    intro i hi
    rw [List.length_map, length_chunksOf hwidth (Nat.mod_eq_zero_of_dvd hwhole)] at hi
    have hin : width * i < block.length := by
      rw [← Nat.div_mul_cancel hwhole, Nat.mul_comm]
      exact Nat.mul_lt_mul_of_pos_right hi hwidth
    rw [List.getElem_map]
    congr 1
    exact (List.getElem_eq_iff _).2 (getElem?_chunksOf hwidth hin)

theorem inOrder_iff (hwidth : 0 < width) (hwhole : width ∣ block.length) :
    InOrder width read block items ↔ items = (chunksOf width block).map read := by
  have hpieces : InOrder width read block ((chunksOf width block).map read) :=
    inOrder_chunksOf hwidth hwhole
  constructor
  · intro h
    apply List.ext_getElem (h.length_eq.trans hpieces.length_eq.symm)
    intro i hi hi'
    rw [h.getElem_eq i hi, hpieces.getElem_eq i hi']
  · rintro rfl
    exact hpieces

end Block

/-! ## Values listed by index -/

section Range

variable {f : Nat → β} {count : Nat}

theorem getElem?_map_range {i : Nat} {b : β} :
    ((List.range count).map f)[i]? = some b ↔ i < count ∧ f i = b := by
  rw [List.getElem?_map]
  by_cases hi : i < count
  · simp [hi]
  · simp [hi]

theorem forall_mem_map_range {p : β → Prop} :
    (∀ b ∈ (List.range count).map f, p b) ↔ ∀ i < count, p (f i) := by
  simp only [List.forall_mem_map, List.mem_range]

end Range

end CableCapture
