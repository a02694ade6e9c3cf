import CableCapture.Proofs.Text.Tags
import Mathlib.Data.List.Forall2

/-!
# Characters and their bytes

The well-formed sequences of bytes are the encodings of characters, and each is read as the
character that it encodes. So text is read back from its bytes. Other bytes are not, but where at
most three bytes are read and written again within the same length, what is written is read and
written as itself.
-/

namespace CableCapture.Utf8

-- ---------------------------------------------------------------------------
-- Well-formed sequences
-- ---------------------------------------------------------------------------

theorem Range.holds_iff {low high b : UInt8} :
    Range.Holds (low, high) b ↔ low.toNat ≤ b.toNat ∧ b.toNat ≤ high.toNat := by
  simp only [Range.Holds, UInt8.le_iff_toNat_le]

theorem Range.holds_tail {b : UInt8} : Range.tail.Holds b ↔ 0x80 ≤ b.toNat ∧ b.toNat ≤ 0xBF :=
  Range.holds_iff

/-- A lead byte and its tail, by length. What a shorter sequence could say, surrogates and numbers
above the last character are left out. -/
inductive Sequence : UInt8 → List UInt8 → Prop where
  | one {lead : UInt8} (hlead : lead.toNat ≤ 0x7F) : Sequence lead []
  | two {lead a : UInt8} (hlead : 0xC2 ≤ lead.toNat ∧ lead.toNat ≤ 0xDF)
    (ha : Range.tail.Holds a) : Sequence lead [a]
  | three {lead a b : UInt8} (hlead : 0xE0 ≤ lead.toNat ∧ lead.toNat ≤ 0xEF)
    (ha : Range.tail.Holds a) (hb : Range.tail.Holds b)
    (hlow : lead.toNat = 0xE0 → 0xA0 ≤ a.toNat) (hhigh : lead.toNat = 0xED → a.toNat ≤ 0x9F) :
    Sequence lead [a, b]
  | four {lead a b c : UInt8} (hlead : 0xF0 ≤ lead.toNat ∧ lead.toNat ≤ 0xF4)
    (ha : Range.tail.Holds a) (hb : Range.tail.Holds b) (hc : Range.tail.Holds c)
    (hlow : lead.toNat = 0xF0 → 0x90 ≤ a.toNat) (hhigh : lead.toNat = 0xF4 → a.toNat ≤ 0x8F) :
    Sequence lead [a, b, c]

variable {lead : UInt8} {tail : List UInt8} {ranges : List Range}

theorem sequence_of_tailRanges (hranges : tailRanges lead = some ranges)
    (htail : List.Forall₂ Range.Holds ranges tail) : Sequence lead tail := by
  unfold tailRanges at hranges
  simp only [UInt8.le_iff_toNat_le, ← UInt8.toNat_inj, UInt8.reduceToNat] at hranges
  -- One case for each row of the table, in its order.
  split_ifs at hranges <;> cases hranges <;>
    simp only [List.forall₂_cons_left_iff, List.forall₂_nil_left_iff, Range.holds_iff,
      UInt8.reduceToNat] at htail
  · subst htail
    exact .one ‹_›
  · obtain ⟨a, _, ha, rfl, rfl⟩ := htail
    exact .two ‹_› ha
  · obtain ⟨a, _, ha, ⟨b, _, hb, rfl, rfl⟩, rfl⟩ := htail
    exact .three (by omega) (Range.holds_tail.2 (by omega)) hb (by omega) (by omega)
  · obtain ⟨a, _, ha, ⟨b, _, hb, rfl, rfl⟩, rfl⟩ := htail
    exact .three (by omega) (Range.holds_tail.2 (by omega)) hb (by omega) (by omega)
  · obtain ⟨a, _, ha, ⟨b, _, hb, rfl, rfl⟩, rfl⟩ := htail
    exact .three (by omega) ha hb (by omega) (by omega)
  · obtain ⟨a, _, ha, ⟨b, _, hb, ⟨c, _, hc, rfl, rfl⟩, rfl⟩, rfl⟩ := htail
    exact .four (by omega) (Range.holds_tail.2 (by omega)) hb hc (by omega) (by omega)
  · obtain ⟨a, _, ha, ⟨b, _, hb, ⟨c, _, hc, rfl, rfl⟩, rfl⟩, rfl⟩ := htail
    exact .four (by omega) (Range.holds_tail.2 (by omega)) hb hc (by omega) (by omega)
  · obtain ⟨a, _, ha, ⟨b, _, hb, ⟨c, _, hc, rfl, rfl⟩, rfl⟩, rfl⟩ := htail
    exact .four (by omega) ha hb hc (by omega) (by omega)

theorem Sequence.exists_ranges (h : Sequence lead tail) :
    ∃ ranges, tailRanges lead = some ranges ∧ List.Forall₂ Range.Holds ranges tail := by
  unfold tailRanges
  simp only [UInt8.le_iff_toNat_le, ← UInt8.toNat_inj, UInt8.reduceToNat]
  cases h with
  | one hlead => exact ⟨_, if_pos hlead, .nil⟩
  | two hlead ha =>
    rw [if_neg (by omega), if_pos hlead]
    exact ⟨_, rfl, .cons ha .nil⟩
  | three hlead ha hb hlow hhigh =>
    obtain ⟨hleast, hgreatest⟩ := Range.holds_tail.1 ha
    rw [if_neg (by omega), if_neg (by omega)]
    split_ifs with hfirst hlast
    · exact ⟨_, rfl, .cons (Range.holds_iff.2 ⟨hlow hfirst, hgreatest⟩) (.cons hb .nil)⟩
    · exact ⟨_, rfl, .cons (Range.holds_iff.2 ⟨hleast, hhigh hlast⟩) (.cons hb .nil)⟩
    · exact ⟨_, rfl, .cons ha (.cons hb .nil)⟩
    all_goals omega
  | four hlead ha hb hc hlow hhigh =>
    obtain ⟨hleast, hgreatest⟩ := Range.holds_tail.1 ha
    rw [if_neg (by omega), if_neg (by omega), if_neg (by omega), if_neg (by omega),
      if_neg (by omega)]
    split_ifs with hfirst hlast
    · exact ⟨_, rfl, .cons (Range.holds_iff.2 ⟨hlow hfirst, hgreatest⟩) (.cons hb (.cons hc .nil))⟩
    · exact ⟨_, rfl, .cons (Range.holds_iff.2 ⟨hleast, hhigh hlast⟩) (.cons hb (.cons hc .nil))⟩
    · exact ⟨_, rfl, .cons ha (.cons hb (.cons hc .nil))⟩
    all_goals omega

-- ---------------------------------------------------------------------------
-- Encodings
-- ---------------------------------------------------------------------------

theorem toNat_ofNat {n : Nat} (h : n.isValidChar) : (Char.ofNat n).val.toNat = n := by
  rw [Char.ofNat, dif_pos h]
  rfl

theorem ofNat_eq {n : Nat} {b : UInt8} (h : n = b.toNat) : UInt8.ofNat n = b := by
  rw [h, UInt8.ofNat_toNat]

theorem Sequence.encode_character (h : Sequence lead tail) :
    String.utf8EncodeChar (character lead tail) = lead :: tail := by
  cases h with
  | one hlead =>
    have hvalid : Nat.isValidChar lead.toNat := .inl (by omega)
    simp only [character, List.length_nil, List.foldl_nil, Nat.sub_zero, String.utf8EncodeChar,
      toNat_ofNat hvalid]
    rw [if_pos hlead, UInt8.ofNat_toNat]
  | @two a hlead ha =>
    rw [Range.holds_tail] at ha
    have hvalid : Nat.isValidChar ((lead.toNat - 0xC0) * 64 + (a.toNat - 0x80)) := .inl (by omega)
    simp only [character, List.length_cons, List.length_nil, List.foldl_cons, List.foldl_nil,
      String.utf8EncodeChar, toNat_ofNat hvalid]
    rw [if_neg (by omega), if_pos (by omega), ofNat_eq (b := lead) (by omega),
      ofNat_eq (b := a) (by omega)]
  | @three a b hlead ha hb hlow hhigh =>
    rw [Range.holds_tail] at ha hb
    have hvalid : Nat.isValidChar
        (((lead.toNat - 0xE0) * 64 + (a.toNat - 0x80)) * 64 + (b.toNat - 0x80)) := by
      unfold Nat.isValidChar
      omega
    simp only [character, List.length_cons, List.length_nil, List.foldl_cons, List.foldl_nil,
      String.utf8EncodeChar, toNat_ofNat hvalid]
    rw [if_neg (by omega), if_neg (by omega), if_pos (by omega), ofNat_eq (b := lead) (by omega),
      ofNat_eq (b := a) (by omega), ofNat_eq (b := b) (by omega)]
  | @four a b c hlead ha hb hc hlow hhigh =>
    rw [Range.holds_tail] at ha hb hc
    have hvalid : Nat.isValidChar ((((lead.toNat - 0xF0) * 64 + (a.toNat - 0x80)) * 64 +
        (b.toNat - 0x80)) * 64 + (c.toNat - 0x80)) := by
      unfold Nat.isValidChar
      omega
    simp only [character, List.length_cons, List.length_nil, List.foldl_cons, List.foldl_nil,
      String.utf8EncodeChar, toNat_ofNat hvalid]
    rw [if_neg (by omega), if_neg (by omega), if_neg (by omega), ofNat_eq (b := lead) (by omega),
      ofNat_eq (b := a) (by omega), ofNat_eq (b := b) (by omega), ofNat_eq (b := c) (by omega)]

theorem exists_sequence (c : Char) :
    ∃ lead tail, String.utf8EncodeChar c = lead :: tail ∧ Sequence lead tail := by
  have hvalid : c.val.toNat.isValidChar := c.valid
  unfold Nat.isValidChar at hvalid
  have hbyte : ∀ n, n < 256 → (UInt8.ofNat n).toNat = n := fun n => UInt8.toNat_ofNat_of_lt
  unfold String.utf8EncodeChar
  generalize c.val.toNat = v at hvalid
  dsimp only
  split_ifs with hone htwo hthree
  · refine ⟨_, _, rfl, .one ?_⟩
    rwa [hbyte v (by omega)]
  · refine ⟨_, _, rfl, .two ?_ (Range.holds_tail.2 ?_)⟩
    · rw [hbyte _ (by omega)]
      omega
    · rw [hbyte _ (by omega)]
      omega
  · refine ⟨_, _, rfl, .three ?_ (Range.holds_tail.2 ?_) (Range.holds_tail.2 ?_) ?_ ?_⟩ <;>
      simp only [hbyte (v / 4096 % 16 + 224) (by omega), hbyte (v / 64 % 64 + 128) (by omega),
        hbyte (v % 64 + 128) (by omega)] <;> omega
  · refine ⟨_, _, rfl, .four ?_ (Range.holds_tail.2 ?_) (Range.holds_tail.2 ?_)
      (Range.holds_tail.2 ?_) ?_ ?_⟩ <;>
      simp only [hbyte (v / 262144 % 8 + 240) (by omega), hbyte (v / 4096 % 64 + 128) (by omega),
        hbyte (v / 64 % 64 + 128) (by omega), hbyte (v % 64 + 128) (by omega)] <;> omega

/-- The core library's own decoder tells encodings apart. -/
theorem utf8EncodeChar_injective : Function.Injective String.utf8EncodeChar := by
  intro c d h
  have hc := ByteArray.utf8DecodeChar?_utf8EncodeChar_append (b := ByteArray.empty) (c := c)
  rw [h, ByteArray.utf8DecodeChar?_utf8EncodeChar_append] at hc
  exact (Option.some.inj hc).symm

theorem encode_cons (c : Char) (cs : List Char) :
    encode (c :: cs) = String.utf8EncodeChar c ++ encode cs := rfl

theorem Sequence.encode_cons (h : Sequence lead tail) (cs : List Char) :
    encode (character lead tail :: cs) = lead :: tail ++ encode cs := by
  rw [Utf8.encode_cons, h.encode_character]

theorem encode_append (cs ds : List Char) : encode (cs ++ ds) = encode cs ++ encode ds :=
  List.flatMap_append

-- ---------------------------------------------------------------------------
-- Reading
-- ---------------------------------------------------------------------------

theorem tailRun_append (htail : List.Forall₂ Range.Holds ranges tail) (rest : List UInt8) :
    tailRun ranges (tail ++ rest) = tail := by
  induction htail with
  | nil => simp [tailRun]
  | cons hb _ ih => rw [List.cons_append, tailRun, if_pos hb, ih]

theorem tailRun_take (htail : List.Forall₂ Range.Holds ranges tail) (n : Nat) :
    tailRun ranges (tail.take n) = tail.take n := by
  induction htail generalizing n with
  | nil => simp [tailRun]
  | cons hb _ ih =>
    cases n with
    | zero => simp [tailRun]
    | succ n => rw [List.take_succ_cons, tailRun, if_pos hb, ih]

/-- A run as long as the ranges has a byte in each of them. -/
theorem forall₂_tailRun {bytes : List UInt8}
    (hlen : (tailRun ranges bytes).length = ranges.length) :
    List.Forall₂ Range.Holds ranges (tailRun ranges bytes) := by
  induction ranges generalizing bytes with
  | nil => simp [tailRun]
  | cons r ranges ih =>
    cases bytes with
    | nil => simp [tailRun] at hlen
    | cons b rest =>
      rw [tailRun] at hlen ⊢
      split at hlen
      · rename_i hb
        rw [if_pos hb]
        exact .cons hb (ih (Nat.succ.inj hlen))
      · simp at hlen

theorem Sequence.decode_append (h : Sequence lead tail) (rest : List UInt8) :
    decode (lead :: tail ++ rest) = character lead tail :: decode rest := by
  obtain ⟨ranges, hranges, htail⟩ := h.exists_ranges
  rw [List.cons_append, decode, hranges]
  simp only [tailRun_append htail, htail.length_eq, if_true, List.drop_left]

/-- A sequence that is cut short is one replacement. -/
theorem Sequence.decode_take (h : Sequence lead tail) {n : Nat} (hn : n < tail.length) :
    decode (lead :: tail.take n) = [replacement] := by
  obtain ⟨ranges, hranges, htail⟩ := h.exists_ranges
  have hcut : (tail.take n).length ≠ ranges.length := by
    rw [htail.length_eq, List.length_take]
    omega
  rw [decode, hranges]
  simp only [tailRun_take htail, if_neg hcut, List.drop_length, decode]

/-- At the front of some bytes stands a sequence, or what is read as a replacement. -/
theorem decode_cons_cases (lead : UInt8) (rest : List UInt8) :
    (∃ tail more, rest = tail ++ more ∧ Sequence lead tail) ∨
      ∃ more, decode (lead :: rest) = replacement :: decode more := by
  rw [decode]
  cases hranges : tailRanges lead with
  | none => exact .inr ⟨rest, rfl⟩
  | some ranges =>
    by_cases hlen : (tailRun ranges rest).length = ranges.length
    · obtain ⟨more, hmore⟩ := tailRun_isPrefix ranges rest
      exact .inl ⟨_, more, hmore.symm, sequence_of_tailRanges hranges (forall₂_tailRun hlen)⟩
    · simp only [if_neg hlen]
      exact .inr ⟨_, rfl⟩

-- ---------------------------------------------------------------------------
-- Reading what was written
-- ---------------------------------------------------------------------------

/-- The bytes of characters are read as these characters, whatever follows. -/
theorem decode_encode_append (cs : List Char) (rest : List UInt8) :
    decode (encode cs ++ rest) = cs ++ decode rest := by
  induction cs with
  | nil => rfl
  | cons c cs ih =>
    obtain ⟨lead, tail, hc, hsequence⟩ := exists_sequence c
    have hread : character lead tail = c :=
      utf8EncodeChar_injective (hsequence.encode_character.trans hc.symm)
    rw [encode_cons, hc, List.append_assoc, hsequence.decode_append, ih, hread, List.cons_append]

theorem decode_encode (cs : List Char) : decode (encode cs) = cs := by
  have h := decode_encode_append cs []
  rwa [List.append_nil, decode, List.append_nil] at h

theorem ofList_decode_ofString (s : String) : String.ofList (decode (ofString s)) = s := by
  rw [ofString, decode_encode, String.ofList_toList]

/-! ## Within the same length -/

/-- The start of a replacement is read as a replacement. -/
theorem decode_take_replacement {n : Nat} (hn : 0 < n) :
    decode ((encode [replacement]).take n) = [replacement] := by
  obtain ⟨lead, tail, hencode, hsequence⟩ := exists_sequence replacement
  by_cases hcut : n ≤ tail.length
  · obtain ⟨m, rfl⟩ := Nat.exists_eq_add_of_lt hn
    rw [encode_cons, hencode, List.cons_append, Nat.zero_add, List.take_succ_cons,
      List.take_append_of_le_length (by omega)]
    exact hsequence.decode_take (by omega)
  · have hwhole : (encode [replacement]).length ≤ n := by
      rw [encode_cons, hencode]
      simp [encode]
      omega
    rw [List.take_of_length_le hwhole, decode_encode]

theorem length_encode_replacement : (encode [replacement]).length = 3 := by decide

/-- At most three bytes are written, within their length, as whole characters and the start of a
replacement behind them. -/
theorem exists_take_encode_decode {bytes : List UInt8} (hlen : bytes.length ≤ 3) :
    ∃ cs n, (encode cs).length + n = bytes.length ∧
      (encode (decode bytes)).take bytes.length =
        encode cs ++ (encode [replacement]).take n := by
  induction hsize : bytes.length using Nat.strongRecOn generalizing bytes with
  | ind size ih =>
    -- The bound of three cannot be dropped: a character behind a replacement could be cut.
    subst hsize
    cases bytes with
    | nil => exact ⟨[], 0, rfl, by simp [decode, encode]⟩
    | cons lead rest =>
      rcases decode_cons_cases lead rest with ⟨tail, more, rfl, hsequence⟩ | ⟨more, hmore⟩
      · -- A whole character fits, and the rest has as many bytes left as it was read from.
        have hsplit : (lead :: (tail ++ more)).length = (lead :: tail).length + more.length := by
          rw [← List.cons_append, List.length_append]
        have hmore : more.length < (lead :: (tail ++ more)).length := by
          rw [hsplit, List.length_cons]
          omega
        obtain ⟨cs, n, hcs, hwritten⟩ := ih _ hmore (by omega) rfl
        refine ⟨character lead tail :: cs, n, ?_, ?_⟩
        · rw [hsequence.encode_cons, List.length_append, hsplit]
          omega
        · rw [hsplit, ← List.cons_append, hsequence.decode_append, hsequence.encode_cons,
            List.take_length_add_append, hwritten, hsequence.encode_cons, List.append_assoc]
      · -- A replacement fills all three bytes.
        refine ⟨[], (lead :: rest).length, Nat.zero_add _, ?_⟩
        have hfits : (lead :: rest).length ≤ (encode [replacement]).length := by
          rwa [length_encode_replacement]
        have hsplit : encode (replacement :: decode more) =
            encode [replacement] ++ encode (decode more) :=
          encode_append [replacement] (decode more)
        rw [hmore, hsplit, List.take_append_of_le_length hfits]
        rfl

/-- What is written within the length of at most three bytes fills it, and is read and written as
itself. -/
theorem take_encode_decode_take {bytes : List UInt8} (hlen : bytes.length ≤ 3) :
    let written := (encode (decode bytes)).take bytes.length
    written.length = bytes.length ∧
      (encode (decode written)).take bytes.length = written := by
  obtain ⟨cs, n, hcs, hwritten⟩ := exists_take_encode_decode hlen
  have hn : n ≤ (encode [replacement]).length := by
    rw [length_encode_replacement]
    omega
  dsimp only
  rw [hwritten, decode_encode_append, encode_append, ← hcs, List.length_append,
    List.length_take_of_le hn, List.take_length_add_append]
  refine ⟨rfl, congrArg (encode cs ++ ·) ?_⟩
  rcases Nat.eq_zero_or_pos n with rfl | hpos
  · rfl
  · rw [decode_take_replacement hpos]

end CableCapture.Utf8
