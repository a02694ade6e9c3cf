import CableCapture.Proofs.Capture.Header
import CableCapture.Proofs.Text.Utf8

/-!
# The wire form of headers

A byte string without a header is too short for one. A header that is written and read again is the
same up to what its version leaves out, if its tag fills three bytes. Bytes that are read and
written again keep all behind the tag, and a damaged tag changes the first time only.
-/

namespace CableCapture

theorem Utf8.length_ofString (s : String) : (Utf8.ofString s).length = s.utf8ByteSize := by
  rw [String.utf8ByteSize, ← String.utf8Encode_toList, List.utf8Encode, List.size_toByteArray]
  rfl

namespace Header

-- ---------------------------------------------------------------------------
-- Cut headers
-- ---------------------------------------------------------------------------

/-- How many bytes a header needs, as far as the bytes tell. -/
def needed (bytes : List UInt8) : Nat :=
  match bytes[3]? with
  | none => 4
  | some version => (HeaderLayout.ofVersion version).size

theorem needed_eq (bytes : List UInt8) :
    needed bytes =
      if bytes.length < 4 then 4 else if bytes[3]? = some 8 then 6 else 10 := by
  unfold needed
  cases hversion : bytes[3]? with
  | none =>
    have hlen := List.getElem?_eq_none_iff.1 hversion
    rw [if_pos (by omega)]
  | some version =>
    have hlen := (List.getElem?_eq_some_iff.1 hversion).1
    rw [if_neg (by omega)]
    by_cases hcompact : version = 8
    · simp [HeaderLayout.ofVersion, HeaderLayout.size, hcompact]
    · simp [HeaderLayout.ofVersion, HeaderLayout.size, hcompact]

theorem parse_eq_error {bytes : List UInt8} {fault : Fault} :
    parse bytes = .error fault ↔
      bytes.length < needed bytes ∧ fault = .truncatedHeader (needed bytes) bytes.length := by
  unfold parse
  split
  · rename_i t₀ t₁ t₂ version rest
    have hneeded : needed (t₀ :: t₁ :: t₂ :: version :: rest) =
        (HeaderLayout.ofVersion version).size := rfl
    rw [hneeded]
    dsimp only
    split
    · rename_i major minor payload hlayout
      simp [hlayout, HeaderLayout.size]
    · rename_i major minor c₀ c₁ c₂ c₃ payload hlayout
      simp [hlayout, HeaderLayout.size]
    · rename_i rest _ _ hcompact hstandard
      have hcut : rest.length + 4 < (HeaderLayout.ofVersion version).size := by
        cases hlayout : HeaderLayout.ofVersion version with
        | compact =>
          match rest with
          | [] | [_] => simp [HeaderLayout.size]
          | _ :: _ :: _ => exact absurd rfl (hcompact _ _ _ hlayout)
        | standard =>
          match rest with
          | [] | [_] | [_, _] | [_, _, _] | [_, _, _, _] | [_, _, _, _, _] =>
            simp [HeaderLayout.size]
          | _ :: _ :: _ :: _ :: _ :: _ :: _ => exact absurd rfl (hstandard _ _ _ _ _ _ _ hlayout)
      simpa [hcut] using eq_comm
  · rename_i hshort
    match bytes with
    | [] | [_] | [_, _] | [_, _, _] => simp [needed, eq_comm]
    | t₀ :: t₁ :: t₂ :: version :: rest => exact absurd rfl (hshort t₀ t₁ t₂ version rest)

-- ---------------------------------------------------------------------------
-- Written headers
-- ---------------------------------------------------------------------------

/-- What is left of a header when it is written: the layout is the one of the version, and where
that has no room for the capture time, the time is zero. -/
def settled (h : Header) : Header :=
  { h with
    layout := .ofVersion h.version
    captureTime := if h.version = 8 then 0 else h.captureTime }

theorem behindTag_settled (h : Header) (tag : String) :
    { h.settled with tag }.behindTag = h.behindTag := by
  unfold behindTag timeBytes settled
  by_cases hversion : h.version = 8
  · simp [HeaderLayout.ofVersion, hversion]
  · simp [hversion]

/-- Behind any three bytes for its tag, a header is read as it was settled. -/
theorem parse_append_behindTag {tag : List UInt8} (hlen : tag.length = 3) (h : Header) :
    parse (tag ++ h.behindTag) = .ok { h.settled with tag := .ofList (Utf8.decode tag) } := by
  refine parse_eq_ok.2 ⟨tag, hlen, rfl, rfl, ?_, ?_⟩
  · intro hcompact
    have hversion : h.version = 8 := by
      by_contra hother
      simp [settled, HeaderLayout.ofVersion, hother] at hcompact
    simp [settled, hversion]
  · rw [behindTag_settled]

theorem length_tagBytes (tag : String) : (tagBytes tag).length = 3 := by
  simp [tagBytes]

theorem parse_toBytes (h : Header) :
    parse h.toBytes =
      .ok { h.settled with tag := .ofList (Utf8.decode (tagBytes h.tag)) } := by
  rw [toBytes_eq]
  exact parse_append_behindTag (length_tagBytes h.tag) h

theorem tagBytes_of_length {tag : String} (hlen : (Utf8.ofString tag).length = 3) :
    tagBytes tag = Utf8.ofString tag :=
  List.take_left' hlen

-- ---------------------------------------------------------------------------
-- Tags that were read
-- ---------------------------------------------------------------------------

section Tags

variable {tag : List UInt8}

theorem tagBytes_ofList_decode (hlen : tag.length = 3) :
    tagBytes (.ofList (Utf8.decode tag)) = (Utf8.encode (Utf8.decode tag)).take 3 := by
  have hfull := (Utf8.take_encode_decode_take hlen.le).1
  rw [hlen, List.length_take] at hfull
  rw [tagBytes, Utf8.ofString, String.toList_ofList, List.take_append_of_le_length (by omega)]

/-- The bytes that are written for a tag that was read stay the same from then on. -/
theorem tagBytes_decode_tagBytes (hlen : tag.length = 3) :
    let written := tagBytes (.ofList (Utf8.decode tag))
    tagBytes (.ofList (Utf8.decode written)) = written := by
  have hstable := (Utf8.take_encode_decode_take hlen.le).2
  rw [hlen, ← tagBytes_ofList_decode hlen] at hstable
  exact (tagBytes_ofList_decode (length_tagBytes _)).trans hstable

theorem tagBytes_of_isValidUTF8 (hlen : tag.length = 3)
    (hvalid : tag.toByteArray.IsValidUTF8) : tagBytes (.ofList (Utf8.decode tag)) = tag := by
  obtain ⟨cs, hcs⟩ := hvalid
  have hencode : tag = Utf8.encode cs := List.toByteArray_inj.1 hcs
  rw [tagBytes_ofList_decode hlen, ← hlen, hencode, Utf8.decode_encode, List.take_length]

end Tags

-- ---------------------------------------------------------------------------
-- Round trips
-- ---------------------------------------------------------------------------

/-- A header whose tag fills three bytes is read back from its wire form as it was settled. A header
that was read is written in as many bytes, and a damaged tag is all that they can differ in; the tag
is then written the same from the first time on. Only what is shorter than its header is not read.
-/
theorem reading_inverts_writing :
    (∀ h : Header, h.tag.utf8ByteSize = 3 →
      parse h.toBytes = .ok
        { h with
          layout := .ofVersion h.version
          captureTime := if h.version = 8 then 0 else h.captureTime }) ∧
    (∀ bytes h, parse bytes = .ok h →
      h.toBytes.length = bytes.length ∧ h.toBytes.drop 3 = bytes.drop 3 ∧
      ((bytes.take 3).toByteArray.IsValidUTF8 → h.toBytes = bytes) ∧
      ∃ h', parse h.toBytes = .ok h' ∧ h'.toBytes = h.toBytes) ∧
    ∀ bytes,
      ((∃ fault, parse bytes = .error fault) ↔
        bytes.length < 4 ∨ bytes.length < if bytes[3]? = some 8 then 6 else 10) ∧
      ∀ fault, parse bytes = .error fault →
        fault = .truncatedHeader
          (if bytes.length < 4 then 4 else if bytes[3]? = some 8 then 6 else 10) bytes.length := by
  refine ⟨?_, ?_, ?_⟩
  · intro h hlen
    rw [← Utf8.length_ofString] at hlen
    rw [parse_toBytes, tagBytes_of_length hlen, Utf8.ofList_decode_ofString]
    rfl
  · intro bytes h hparse
    obtain ⟨tag, hlen, htag, -, -, rfl⟩ := parse_eq_ok.1 hparse
    have hbytes : h.toBytes = tagBytes h.tag ++ h.behindTag := toBytes_eq h
    refine ⟨?_, ?_, ?_, ?_⟩
    · rw [hbytes, List.length_append, List.length_append, length_tagBytes, hlen]
    · rw [hbytes, List.drop_left' (length_tagBytes _), List.drop_left' hlen]
    · intro hvalid
      rw [List.take_left' hlen] at hvalid
      rw [hbytes, htag, tagBytes_of_isValidUTF8 hlen hvalid]
    · refine ⟨_, parse_toBytes h, ?_⟩
      rw [toBytes_eq, behindTag_settled, hbytes, htag, tagBytes_decode_tagBytes hlen]
  · intro bytes
    constructor
    · have hfails : (∃ fault, parse bytes = .error fault) ↔ bytes.length < needed bytes := by
        simp only [parse_eq_error, exists_and_left, exists_eq, and_true]
      rw [hfails, needed_eq]
      split_ifs <;> omega
    · intro fault hfault
      rw [← needed_eq]
      exact (parse_eq_error.1 hfault).2

/-- A header of version 8 loses its capture time. A tag in which a character of two bytes follows a
byte that starts none is written as one replacement, and stays so. -/
theorem reading_inverts_writing_damaged_tag :
    let h : Header :=
      { tag := "é1", version := 8, major := 1, minor := 2, captureTime := 5, layout := .standard
        payload := [0x7F] }
    let damaged : Header :=
      { tag := "\uFFFDé", version := 8, major := 1, minor := 2, captureTime := 0
        layout := .compact, payload := [0x7F] }
    let written := [0xEF, 0xBF, 0xBD, 8, 1, 2, 0x7F]
    h.tag.utf8ByteSize = 3 ∧ parse h.toBytes = .ok { h with layout := .compact, captureTime := 0 } ∧
      parse [0xFF, 0xC3, 0xA9, 8, 1, 2, 0x7F] = .ok damaged ∧ damaged.toBytes = written ∧
      ∃ h', parse written = .ok h' ∧ h'.toBytes = written := by
  intro h damaged written
  have hsize : h.tag.utf8ByteSize = 3 := by decide
  have hparse : parse [0xFF, 0xC3, 0xA9, 8, 1, 2, 0x7F] = .ok damaged := by decide +kernel
  have hwritten : damaged.toBytes = written := by decide
  have hsettles := (reading_inverts_writing.2.1 _ _ hparse).2.2.2
  rw [hwritten] at hsettles
  exact ⟨hsize, reading_inverts_writing.1 h hsize, hparse, hwritten, hsettles⟩

end Header

end CableCapture
