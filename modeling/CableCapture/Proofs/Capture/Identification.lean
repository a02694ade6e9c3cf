import CableCapture.Proofs.Capture.Identity
import CableCapture.Proofs.Reader.Front

/-!
# Identification beside decoding

Identifying a capture reads a few bytes in front of its payload, and decoding starts with the same
fields. So what a capture is identified as is what it decodes to, and what cannot be identified
cannot be decoded, for the same reason.
-/

namespace CableCapture

namespace Identity

/-! ## The fields in front of a payload -/

/-- The channel and the address, under the name that a record has for its address. -/
def placeReader (field : String) : Reader (UInt8 × MacAddress) := do
  let channel ← Reader.uint8 "channel_id"
  let mac ← Reader.mac field
  return (channel, mac)

theorem extends_placeReader {α : Type} {field : String} (next : UInt8 → MacAddress → Reader α) :
    Reader.Extends (do
      let channel ← Reader.uint8 "channel_id"
      let mac ← Reader.mac field
      next channel mac) (placeReader field) :=
  ⟨fun p => next p.1 p.2, by simp only [placeReader, bind_assoc, pure_bind]⟩

theorem extends_reader_histogram {α : Type} (next : MacAddress → Reader α) :
    Reader.Extends (Reader.mac "mac_address" >>= next) (reader .histogram) :=
  ⟨fun p => next p.2, by simp only [reader, bind_assoc, pure_bind]⟩

theorem within_placeReader (field : String) : (placeReader field).Within 7 :=
  .uint8_bind fun _ => .mac_bind fun _ => .pure _

theorem decode_placeReader (field : String) (payload : List UInt8) :
    (placeReader field).decode payload =
      match payload with
      | [] => .error (.truncatedPayload "channel_id" 1 0)
      | channel :: rest =>
        if 6 ≤ rest.length then .ok (channel, (MacAddress.ofOctets? (rest.take 6)).getD .unset)
        else .error (.truncatedPayload field 6 rest.length) := by
  cases payload with
  | nil => rfl
  | cons channel rest =>
    have hplace : (placeReader field).decode (channel :: rest) =
        Reader.decode (do return (channel, ← Reader.mac field)) rest :=
      (Reader.spells_uint8.2 rfl).decode_bind rest
    rw [hplace, Reader.mac, bind_assoc, Reader.decode_bind, Reader.on_take]
    by_cases hlen : 6 ≤ rest.length
    · simp only [if_pos hlen]
      rfl
    · simp only [if_neg hlen]

/-- A cut is reported under the name of the field that is cut. -/
theorem placeReader_eq_error {field : String} {payload : List UInt8} {fault : Fault}
    (h : (placeReader field).decode payload = .error fault) (other : String) :
    (placeReader other).decode payload = .error fault ∨
      ∃ available, fault = .truncatedPayload field 6 available ∧
        (placeReader other).decode payload = .error (.truncatedPayload other 6 available) := by
  rw [decode_placeReader] at h ⊢
  cases payload with
  | nil => exact .inl h
  | cons channel rest =>
    dsimp only at h ⊢
    split at h
    · cases h
    · rename_i hshort
      refine .inr ⟨rest.length, (Except.error.inj h).symm, ?_⟩
      rw [if_neg hshort]

/-! ## What identification reads -/

theorem within_reader_histogram : (reader .histogram).Within 6 :=
  .mac_bind fun _ => .pure _

theorem within_reader (kind : CaptureKind) : (reader kind).Within 7 := by
  cases kind with
  | histogram => exact within_reader_histogram.mono (by decide)
  | latencyReport => exact (Reader.Within.throw _).mono (by decide)
  | _ => exact within_placeReader _

/-- Payloads with one front are identified alike. -/
theorem ofHeader_congr {h : Header} {n : Nat}
    (hreader : ∀ kind, h.kind = .ok kind → (reader kind).Within n) {payload : List UInt8}
    (hfront : payload.take n = h.payload.take n) :
    ofHeader { h with payload } = ofHeader h := by
  have hkind : Header.kind { h with payload } = h.kind := rfl
  unfold ofHeader
  rw [hkind]
  cases hk : h.kind with
  | error fault => rfl
  | ok kind =>
    have hwithin := hreader kind hk
    have hsame : (reader kind).decode payload = (reader kind).decode h.payload := by
      rw [← hwithin payload, hfront, hwithin]
    rw [ok_bind, ok_bind, hsame]

theorem ofHeader_eq_error {h : Header} {fault : Fault} (hfault : ofHeader h = .error fault) :
    h.kind = .error fault ∨
      ∃ kind, h.kind = .ok kind ∧ (reader kind).decode h.payload = .error fault := by
  unfold ofHeader at hfault
  cases hkind : h.kind with
  | error cause =>
    rw [hkind] at hfault
    exact .inl (congrArg _ (Except.error.inj hfault))
  | ok kind =>
    refine .inr ⟨kind, rfl, ?_⟩
    rw [hkind, ok_bind] at hfault
    cases hplace : (reader kind).decode h.payload with
    | error cause =>
      rw [hplace] at hfault
      exact congrArg _ (Except.error.inj hfault)
    | ok place =>
      rw [hplace, ok_bind] at hfault
      cases hfault

end Identity

namespace Capture

open Identity

/-! ## What decoding reads first -/

theorem extends_reader_preEqualization {preamble : Preamble}
    (h : preamble.kind = .preEqualization ∨ preamble.kind = .preEqualizationLastUpdate) :
    (reader preamble).Extends (placeReader "cm_mac_address") := by
  have hreader : reader preamble = preEqualization <$> PreEqualization.reader preamble := by
    unfold reader
    rcases h with h | h <;> rw [h]
  rw [hreader]
  exact (extends_placeReader _).map _

/-- But for the name of one field, every decoder starts as identification does. -/
theorem extends_reader {preamble : Preamble} (hfirst : preamble.kind ≠ .preEqualization)
    (hlast : preamble.kind ≠ .preEqualizationLastUpdate) :
    (reader preamble).Extends (Identity.reader preamble.kind) := by
  unfold reader
  cases hkind : preamble.kind with
  | symbolCapture => exact (extends_placeReader _).map _
  | channelEstimate => exact (extends_placeReader _).map _
  | constellation => exact (extends_placeReader _).map _
  | rxMer => exact (extends_placeReader _).map _
  | histogram => exact (extends_reader_histogram _).map _
  | preEqualization => exact absurd hkind hfirst
  | preEqualizationLastUpdate => exact absurd hkind hlast
  | fecSummary => exact (extends_placeReader _).map _
  | spectrum => exact (extends_placeReader _).map _
  | modulationProfile => exact (extends_placeReader _).map _
  | latencyReport => exact ⟨fun _ => throw (.noDecoder .latencyReport), rfl⟩

theorem fault_of_identity {h : Header} {fault : Fault}
    (hfault : Identity.ofHeader h = .error fault) :
    decode h = .error fault ∨
      (h.kind = .ok .preEqualization ∨ h.kind = .ok .preEqualizationLastUpdate) ∧
        ∃ available, fault = .truncatedPayload "mac_address" 6 available ∧
          decode h = .error (.truncatedPayload "cm_mac_address" 6 available) := by
  rcases ofHeader_eq_error hfault with hkind | ⟨kind, hkind, hread⟩
  · left
    unfold decode
    rw [hkind]
    rfl
  · rw [decode_of_kind hkind]
    by_cases hpre : kind = .preEqualization ∨ kind = .preEqualizationLastUpdate
    · have hextends : (reader (h.preamble kind)).Extends (placeReader "cm_mac_address") :=
        extends_reader_preEqualization hpre
      have hplace : Identity.reader kind = placeReader "mac_address" := by
        rcases hpre with rfl | rfl <;> rfl
      rw [hplace] at hread
      rcases placeReader_eq_error hread "cm_mac_address" with hsame | ⟨available, hname, hother⟩
      · exact .inl (hextends.decode_eq_error hsame)
      · refine .inr ⟨?_, available, hname, hextends.decode_eq_error hother⟩
        rcases hpre with rfl | rfl
        · exact .inl hkind
        · exact .inr hkind
    · rw [not_or] at hpre
      have hextends : (reader (h.preamble kind)).Extends (Identity.reader kind) :=
        extends_reader hpre.1 hpre.2
      exact .inl (hextends.decode_eq_error hread)

/-- Whatever decodes is identified as what it decodes to. Whatever cannot be identified does not
decode, and the fault is the same one; only a cut address has another name in captures of
pre-equalization. Identification looks at the first seven bytes of a payload, and at six of them
in a histogram. -/
theorem identification_agrees_with_decoding (h : Header) :
    (∀ c, decode h = .ok c →
      Identity.ofHeader h =
        .ok { kind := c.kind, channel := c.channel, mac := c.mac, captureTime := c.time }) ∧
    (∀ fault, Identity.ofHeader h = .error fault →
      decode h = .error fault ∨
        (h.kind = .ok .preEqualization ∨ h.kind = .ok .preEqualizationLastUpdate) ∧
          ∃ available, fault = .truncatedPayload "mac_address" 6 available ∧
            decode h = .error (.truncatedPayload "cm_mac_address" 6 available)) ∧
    (∀ payload, payload.take 7 = h.payload.take 7 →
      Identity.ofHeader { h with payload } = Identity.ofHeader h) ∧
    (h.kind = .ok .histogram → ∀ payload, payload.take 6 = h.payload.take 6 →
      Identity.ofHeader { h with payload } = Identity.ofHeader h) := by
  refine ⟨fun c => identity_of_decode, fun fault => fault_of_identity, ?_, ?_⟩
  · intro payload hfront
    exact ofHeader_congr (fun kind _ => within_reader kind) hfront
  · intro hhistogram payload hfront
    refine ofHeader_congr (fun kind hkind => ?_) hfront
    obtain rfl : kind = .histogram := Except.ok.inj (hkind.symm.trans hhistogram)
    exact within_reader_histogram

/-- The header of a pre-equalization whose payload ends within the address. -/
def cutAddress : Header where
  tag := "PNN"
  version := 6
  major := 1
  minor := 0
  captureTime := 100
  layout := .standard
  payload := [3, 0, 17, 34]

theorem cutAddress_not_identified :
    Identity.ofHeader cutAddress = .error (.truncatedPayload "mac_address" 6 3) ∧
      decode cutAddress = .error (.truncatedPayload "cm_mac_address" 6 3) := by
  have hfault : Identity.ofHeader cutAddress = .error (.truncatedPayload "mac_address" 6 3) := rfl
  have hother : decode cutAddress ≠ .error (.truncatedPayload "mac_address" 6 3) := by decide
  obtain ⟨-, hfaults, -⟩ := identification_agrees_with_decoding cutAddress
  rcases hfaults _ hfault with hsame | ⟨-, available, havailable, hdecode⟩
  · exact absurd hsame hother
  · cases havailable
    exact ⟨hfault, hdecode⟩

end Capture

end CableCapture
