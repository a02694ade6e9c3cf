import CableCapture.CaptureIndex
import CableCapture.Proofs.Capture.Decoding

/-!
# Identification agrees with decoding

Every payload that decodes starts with the fields that identify the capture. So an entry is filed
under the kind, the channel, the address and the time of its capture.
-/

namespace CableCapture

namespace Identity

/-- The front that all kinds with a decoder share, but for the histogram. -/
theorem decode_reader {kind : CaptureKind} (hhistogram : kind ≠ .histogram)
    (hlatency : kind ≠ .latencyReport) (channel : UInt8) (mac : MacAddress) (rest : List UInt8) :
    (reader kind).decode ([channel] ++ (mac.octets ++ rest)) = .ok (channel, mac) := by
  have hreader : reader kind = (do
      let channel ← Reader.uint8 "channel_id"
      let mac ← Reader.mac "mac_address"
      return (channel, mac)) := by
    cases kind <;> first | rfl | contradiction
  rw [hreader]
  exact Reader.decode_uint8_bind.2 ⟨channel, _, rfl, Reader.decode_mac_bind.2 ⟨mac, rest, rfl, rfl⟩⟩

theorem decode_reader_histogram (mac : MacAddress) (rest : List UInt8) :
    (reader .histogram).decode (mac.octets ++ rest) = .ok (0, mac) :=
  Reader.decode_mac_bind.2 ⟨mac, rest, rfl, rfl⟩

end Identity

namespace Capture

/-- What places the capture in an index. -/
def identity (c : Capture) : Identity where
  kind := c.kind
  channel := c.channel
  mac := c.mac
  captureTime := c.time

/-- The fields that identify a capture. A histogram has no channel among them. -/
def place : Capture → List UInt8
  | histogram r => r.mac.octets
  | c => [c.channel] ++ c.mac.octets

/-- They stand in front of every payload. -/
theorem exists_place_of_reads {c : Capture} {payload : List UInt8} (h : c.Reads payload) :
    ∃ rest, payload = c.place ++ rest := by
  cases c with
  | symbolCapture r =>
    obtain ⟨-, data, -, -, rfl⟩ := SymbolCapture.decode_reader_eq_ok.1 h
    simp only [SymbolCapture.front, List.append_assoc]
    exact ⟨_, rfl⟩
  | channelEstimate r =>
    obtain ⟨-, data, -, -, rfl⟩ := ChannelEstimate.decode_reader_eq_ok.1 h
    simp only [ChannelEstimate.front, List.append_assoc]
    exact ⟨_, rfl⟩
  | constellation r =>
    obtain ⟨-, data, -, -, rfl⟩ := Constellation.decode_reader_eq_ok.1 h
    simp only [Constellation.front, List.append_assoc]
    exact ⟨_, rfl⟩
  | rxMer r =>
    obtain ⟨-, data, -, -, rfl⟩ := RxMer.decode_reader_eq_ok.1 h
    simp only [RxMer.front, List.append_assoc]
    exact ⟨_, rfl⟩
  | histogram r =>
    obtain ⟨-, -, -, rfl⟩ := Histogram.decode_reader_eq_ok.1 h
    simp only [Histogram.toPayload, List.append_assoc]
    exact ⟨_, rfl⟩
  | preEqualization r =>
    obtain ⟨-, data, -, -, rfl⟩ := PreEqualization.decode_reader_eq_ok.1 h
    simp only [PreEqualization.front, List.append_assoc]
    exact ⟨_, rfl⟩
  | fecSummary r =>
    obtain ⟨-, -, -, -, rfl⟩ := FecSummary.decode_reader_eq_ok.1 h
    simp only [FecSummary.toPayload, List.append_assoc]
    exact ⟨_, rfl⟩
  | spectrum r =>
    obtain ⟨-, data, -, -, rfl⟩ := Spectrum.decode_reader_eq_ok.1 h
    simp only [Spectrum.front, List.append_assoc]
    exact ⟨_, rfl⟩
  | modulationProfile r =>
    obtain ⟨-, -, -, rfl⟩ := ModulationProfiles.decode_reader_eq_ok.1 h
    simp only [ModulationProfiles.toPayload, List.append_assoc]
    exact ⟨_, rfl⟩

theorem identity_of_reads {c : Capture} {payload : List UInt8} (hkind : c.kind ∈ c.kinds)
    (h : c.Reads payload) :
    (Identity.reader c.kind).decode payload = .ok (c.channel, c.mac) := by
  obtain ⟨rest, rfl⟩ := exists_place_of_reads h
  cases c with
  | histogram r =>
    rw [List.mem_singleton.1 hkind]
    exact Identity.decode_reader_histogram _ _
  | preEqualization r =>
    rcases List.mem_cons.1 hkind with hkind | hkind
    · rw [hkind]
      exact Identity.decode_reader (by decide) (by decide) _ _ _
    · rw [List.mem_singleton.1 hkind]
      exact Identity.decode_reader (by decide) (by decide) _ _ _
  | _ =>
    rw [List.mem_singleton.1 hkind]
    exact Identity.decode_reader (by decide) (by decide) _ _ _

theorem identity_of_decode {h : Header} {c : Capture} (hc : decode h = .ok c) :
    Identity.ofHeader h = .ok c.identity := by
  obtain ⟨hkind, hpreamble, hmem, hreads⟩ := decode_eq_ok.1 hc
  have htime : h.captureTime = c.time := congrArg Preamble.captureTime hpreamble.symm
  unfold Identity.ofHeader
  rw [hkind, ok_bind, identity_of_reads hmem hreads, ok_bind, htime]
  rfl

end Capture

namespace IndexEntry

variable {fileName : String} {bytes : List UInt8} {e : IndexEntry}

theorem ofFile_eq_ok :
    ofFile fileName bytes = .ok e ↔
      ∃ h, Header.parse bytes = .ok h ∧
        Identity.ofHeader h = .ok e.identity ∧ e.identity.mac ≠ .unset ∧
          e.fileName = fileName ∧ e.bytes = bytes := by
  unfold ofFile
  simp only [bind_eq_ok]
  constructor
  · intro h
    obtain ⟨header, hparse, identity, hidentity, h⟩ := h
    split at h
    · cases h
    · rename_i hset
      cases h
      exact ⟨header, hparse, hidentity, by simpa [MacAddress.isUnset] using hset, rfl, rfl⟩
  · intro h
    obtain ⟨header, hparse, hidentity, hset, rfl, rfl⟩ := h
    refine ⟨header, hparse, e.identity, hidentity, ?_⟩
    rw [if_neg (by simpa [MacAddress.isUnset] using hset)]
    rfl

/-- Whatever the entry decodes to has the identity under which it is filed. -/
def Filed (e : IndexEntry) : Prop :=
  ∀ c, e.decode = .ok c → c.identity = e.identity ∧ c.kind ∈ c.kinds

theorem filed_of_ofFile (h : ofFile fileName bytes = .ok e) : e.Filed := by
  obtain ⟨header, hparse, hidentity, -, -, rfl⟩ := ofFile_eq_ok.1 h
  intro c hc
  unfold decode Capture.ofBytes at hc
  rw [hparse, ok_bind] at hc
  rw [Capture.identity_of_decode hc] at hidentity
  exact ⟨Except.ok.inj hidentity, (Capture.decode_eq_ok.1 hc).2.2.1⟩

end IndexEntry

end CableCapture
