import CableCapture.Proofs.Capture.Decoding
import CableCapture.Proofs.Capture.Registry
import CableCapture.Proofs.Capture.WireForm
import CableCapture.Proofs.Record.Faults

/-!
# Decoders and their dispatch

Each of the nine decoders accepts the kinds for which it is registered and names the first of them
when it is given another kind. Dispatching a header is running the decoder of its kind, and from a
file it fails only because the header or the payload is wrong.
-/

namespace CableCapture

/-! ## Decoders -/

/-- The decoders, one for every shape of record. -/
inductive Decoder where
  | symbolCapture
  | channelEstimate
  | constellation
  | rxMer
  | histogram
  | preEqualization
  | fecSummary
  | spectrum
  | modulationProfile
deriving DecidableEq

namespace Decoder

/-- The decoder that is registered for a kind. -/
def registered? : CaptureKind → Option Decoder
  | .symbolCapture => some symbolCapture
  | .channelEstimate => some channelEstimate
  | .constellation => some constellation
  | .rxMer => some rxMer
  | .histogram => some histogram
  | .preEqualization | .preEqualizationLastUpdate => some preEqualization
  | .fecSummary => some fecSummary
  | .spectrum => some spectrum
  | .modulationProfile => some modulationProfile
  | .latencyReport => none

/-- The first kind that a decoder accepts. -/
def first : Decoder → CaptureKind
  | symbolCapture => .symbolCapture
  | channelEstimate => .channelEstimate
  | constellation => .constellation
  | rxMer => .rxMer
  | histogram => .histogram
  | preEqualization => .preEqualization
  | fecSummary => .fecSummary
  | spectrum => .spectrum
  | modulationProfile => .modulationProfile

/-- The further kinds that it accepts. -/
def others : Decoder → List CaptureKind
  | preEqualization => [.preEqualizationLastUpdate]
  | _ => []

/-- The records of a decoder as captures. -/
def decode (d : Decoder) (h : Header) : Except Fault Capture :=
  match d with
  | symbolCapture => (SymbolCapture.decode h).map .symbolCapture
  | channelEstimate => (ChannelEstimate.decode h).map .channelEstimate
  | constellation => (Constellation.decode h).map .constellation
  | rxMer => (RxMer.decode h).map .rxMer
  | histogram => (Histogram.decode h).map .histogram
  | preEqualization => (PreEqualization.decode h).map .preEqualization
  | fecSummary => (FecSummary.decode h).map .fecSummary
  | spectrum => (Spectrum.decode h).map .spectrum
  | modulationProfile => (ModulationProfiles.decode h).map .modulationProfile

/-- The payload of a capture that the decoder accepts. -/
def reader (d : Decoder) (preamble : Preamble) : Reader Capture :=
  match d with
  | symbolCapture => .symbolCapture <$> SymbolCapture.reader preamble
  | channelEstimate => .channelEstimate <$> ChannelEstimate.reader preamble
  | constellation => .constellation <$> Constellation.reader preamble
  | rxMer => .rxMer <$> RxMer.reader preamble
  | histogram => .histogram <$> Histogram.reader preamble
  | preEqualization => .preEqualization <$> PreEqualization.reader preamble
  | fecSummary => .fecSummary <$> FecSummary.reader preamble
  | spectrum => .spectrum <$> Spectrum.reader preamble
  | modulationProfile => .modulationProfile <$> ModulationProfiles.reader preamble

theorem mem_accepted {d : Decoder} {kind : CaptureKind} :
    kind ∈ d.first :: d.others ↔ registered? kind = some d := by
  cases kind <;> cases d <;> decide

theorem registered?_isSome {kind : CaptureKind} :
    (registered? kind).isSome ↔ kind ≠ .latencyReport := by
  cases kind <;> decide

end Decoder

theorem Header.kind_eq_error {h : Header} {fault : Fault} :
    h.kind = .error fault ↔ h.kind? = none ∧ fault = .unknownType h.tag h.version := by
  unfold Header.kind
  cases h.kind? with
  | none => simp [eq_comm]
  | some found => simp

namespace Decoder

variable {d : Decoder} {h : Header} {kind : CaptureKind}

theorem map_decode {α : Type} (expected : Except Fault Preamble) (item : Preamble → Reader α)
    (wrap : α → Capture) (payload : List UInt8) :
    (expected >>= fun preamble => (item preamble).decode payload).map wrap =
      expected >>= fun preamble => (wrap <$> item preamble).decode payload := by
  cases expected with
  | error fault => rfl
  | ok preamble => exact (Reader.decode_map wrap (item preamble) payload).symm

/-- All decoders check the kind first and then read the payload. -/
theorem decode_eq (d : Decoder) (h : Header) :
    d.decode h =
      h.expect d.first d.others >>= fun preamble => (d.reader preamble).decode h.payload := by
  cases d with
  | symbolCapture => exact map_decode _ SymbolCapture.reader _ _
  | channelEstimate => exact map_decode _ ChannelEstimate.reader _ _
  | constellation => exact map_decode _ Constellation.reader _ _
  | rxMer => exact map_decode _ RxMer.reader _ _
  | histogram => exact map_decode _ Histogram.reader _ _
  | preEqualization => exact map_decode _ PreEqualization.reader _ _
  | fecSummary => exact map_decode _ FecSummary.reader _ _
  | spectrum => exact map_decode _ Spectrum.reader _ _
  | modulationProfile => exact map_decode _ ModulationProfiles.reader _ _

theorem decode_of_unknown (hkind : h.kind? = none) :
    d.decode h = .error (.unknownType h.tag h.version) := by
  rw [decode_eq, Header.expect_of_error (Header.kind_eq_error.2 ⟨hkind, rfl⟩)]
  rfl

theorem decode_of_other (hkind : h.kind? = some kind) (hother : registered? kind ≠ some d) :
    d.decode h = .error (.wrongType d.first kind) := by
  rw [decode_eq,
    Header.expect_of_not_mem (Header.kind_eq_ok.2 hkind) (mt mem_accepted.1 hother)]
  rfl

/-- The dispatcher picks the reader of the registered decoder. -/
theorem reader_eq {preamble : Preamble} (hregistered : registered? preamble.kind = some d) :
    Capture.reader preamble = d.reader preamble := by
  unfold Capture.reader
  cases hkind : preamble.kind with
  | latencyReport =>
    rw [hkind] at hregistered
    cases hregistered
  | _ =>
    rw [hkind] at hregistered
    obtain rfl := Option.some.inj hregistered
    rfl

theorem decode_of_registered (hkind : h.kind? = some kind)
    (hregistered : registered? kind = some d) : d.decode h = Capture.decode h := by
  have hkind := Header.kind_eq_ok.2 hkind
  have hreader : Capture.reader (h.preamble kind) = d.reader (h.preamble kind) :=
    reader_eq hregistered
  rw [decode_eq, Header.expect_of_mem hkind (mem_accepted.2 hregistered), ok_bind,
    Capture.decode_of_kind hkind, hreader]

/-- A decoder accepts headers of its own kinds only. -/
theorem registered?_of_decode {c : Capture} (hc : d.decode h = .ok c) :
    ∃ kind, h.kind? = some kind ∧ registered? kind = some d := by
  cases hkind : h.kind? with
  | none =>
    rw [decode_of_unknown hkind] at hc
    cases hc
  | some kind =>
    refine ⟨kind, rfl, ?_⟩
    by_contra hother
    rw [decode_of_other hkind hother] at hc
    cases hc

end Decoder

namespace Capture

open Decoder

variable {h : Header} {c : Capture}

theorem decode_of_unknown (hkind : h.kind? = none) :
    decode h = .error (.unknownType h.tag h.version) := by
  unfold decode
  rw [Header.kind_eq_error.2 ⟨hkind, rfl⟩]
  rfl

theorem decode_of_latencyReport (hkind : h.kind? = some .latencyReport) :
    decode h = .error (.noDecoder .latencyReport) := by
  rw [decode_of_kind (Header.kind_eq_ok.2 hkind)]
  rfl

theorem decode_eq_ok_iff : decode h = .ok c ↔ ∃ d : Decoder, d.decode h = .ok c := by
  constructor
  · intro hc
    obtain ⟨kind, hkind, -⟩ := decode_eq_ok_of_kind.1 hc
    have hkind := Header.kind_eq_ok.1 hkind
    cases hregistered : registered? kind with
    | none =>
      have hlatency : kind = .latencyReport := by
        by_contra hne
        have hsome := registered?_isSome.2 hne
        rw [hregistered] at hsome
        cases hsome
      rw [hlatency] at hkind
      rw [decode_of_latencyReport hkind] at hc
      cases hc
    | some d => exact ⟨d, (decode_of_registered hkind hregistered).trans hc⟩
  · rintro ⟨d, hc⟩
    obtain ⟨kind, hkind, hregistered⟩ := registered?_of_decode hc
    rwa [decode_of_registered hkind hregistered] at hc

/-! ## Faults -/

theorem failsWith_reader {preamble : Preamble} (hlatency : preamble.kind ≠ .latencyReport) :
    (reader preamble).FailsWith (Fault.OfPayload preamble.kind) := by
  unfold reader
  cases hkind : preamble.kind with
  | symbolCapture => exact (SymbolCapture.failsWith_reader _).map _
  | channelEstimate => exact (ChannelEstimate.failsWith_reader _).map _
  | constellation => exact (Constellation.failsWith_reader _).map _
  | rxMer => exact (RxMer.failsWith_reader _).map _
  | histogram => exact (Histogram.failsWith_reader _).map _
  | preEqualization => exact (PreEqualization.failsWith_reader _).map _
  | preEqualizationLastUpdate => exact (PreEqualization.failsWith_reader _).map _
  | fecSummary => exact (FecSummary.failsWith_reader _).map _
  | spectrum => exact (Spectrum.failsWith_reader _).map _
  | modulationProfile => exact (ModulationProfiles.failsWith_reader _).map _
  | latencyReport => exact absurd hkind hlatency

/-- What may be wrong with a file: its header is cut, or its kind is unknown, or its payload has a
fault of its kind. -/
inductive FaultOfFile (bytes : List UInt8) : Fault → Prop where
  | header (needed available : Nat) : FaultOfFile bytes (.truncatedHeader needed available)
  | unknown (tag : String) (version : UInt8) : FaultOfFile bytes (.unknownType tag version)
  | payload {h : Header} {kind : CaptureKind} {fault : Fault} (hparse : Header.parse bytes = .ok h)
    (hkind : h.kind? = some kind) (hfault : Fault.OfPayload kind fault) : FaultOfFile bytes fault

theorem faultOfFile_of_ofBytes {bytes : List UInt8} {fault : Fault}
    (hfault : ofBytes bytes = .error fault) : FaultOfFile bytes fault := by
  unfold ofBytes at hfault
  cases hparse : Header.parse bytes with
  | error cause =>
    rw [hparse] at hfault
    rw [← Except.error.inj hfault, (Header.parse_eq_error.1 hparse).2]
    exact .header _ _
  | ok h =>
    rw [hparse, ok_bind] at hfault
    cases hkind : h.kind? with
    | none =>
      rw [decode_of_unknown hkind] at hfault
      rw [← Except.error.inj hfault]
      exact .unknown _ _
    | some kind =>
      have hlatency := ((Header.kind?_of_parse hparse).1 hkind).2.2
      rw [decode_of_kind (Header.kind_eq_ok.2 hkind)] at hfault
      exact .payload hparse hkind (failsWith_reader hlatency _ _ hfault)

/-! ## Agreement -/

/-- A header of no kind is refused by every decoder as by their dispatch, with one fault. Under a
kind the decoder that is registered for it gives what the dispatch gives, whether a capture or a
fault, and every other one refuses the header before it looks at the payload. So no two decoders
accept a header, and the dispatch accepts what one of them does. A file has no other fault than a
cut header, an unknown kind, a wrong length of its payload or in it, or an unknown scheme in a
modulation profile. -/
theorem dispatch_agrees_with_decoders :
    (∀ h : Header, h.kind? = none →
      decode h = .error (.unknownType h.tag h.version) ∧
      ∀ d : Decoder, d.decode h = .error (.unknownType h.tag h.version)) ∧
    (∀ (h : Header) (kind : CaptureKind), h.kind? = some kind → ∀ d : Decoder,
      (registered? kind ≠ some d → ∀ payload,
        d.decode { h with payload } = .error (.wrongType d.first kind)) ∧
      (registered? kind = some d → d.decode h = decode h)) ∧
    (∀ kind, (registered? kind).isSome ↔ kind ≠ .latencyReport) ∧
    (∀ (h : Header) (c c' : Capture) (d d' : Decoder),
      d.decode h = .ok c → d'.decode h = .ok c' → d = d') ∧
    (∀ (h : Header) (c : Capture), decode h = .ok c ↔ ∃ d : Decoder, d.decode h = .ok c) ∧
    ∀ (bytes : List UInt8) (fault : Fault), ofBytes bytes = .error fault →
      (∃ needed available, fault = .truncatedHeader needed available) ∨
      (∃ tag version, fault = .unknownType tag version) ∨
      (∃ field needed available, fault = .truncatedPayload field needed available) ∨
      (∃ cause, fault = .lengthMismatch cause) ∨
      ∃ code h, fault = .corrupted (.unknownScheme code) ∧ Header.parse bytes = .ok h ∧
        h.kind? = some .modulationProfile := by
  refine ⟨?_, ?_, fun _ => registered?_isSome, ?_, fun _ _ => decode_eq_ok_iff, ?_⟩
  · intro h hkind
    exact ⟨decode_of_unknown hkind, fun d => Decoder.decode_of_unknown hkind⟩
  · intro h kind hkind d
    exact ⟨fun hother payload => decode_of_other (h := { h with payload }) hkind hother,
      decode_of_registered hkind⟩
  · intro h c c' d d' hc hc'
    obtain ⟨kind, hkind, hregistered⟩ := registered?_of_decode hc
    obtain ⟨kind', hkind', hregistered'⟩ := registered?_of_decode hc'
    obtain rfl := Option.some.inj (hkind.symm.trans hkind')
    exact Option.some.inj (hregistered.symm.trans hregistered')
  · intro bytes fault hfault
    cases faultOfFile_of_ofBytes hfault with
    | header needed available => exact .inl ⟨_, _, rfl⟩
    | unknown tag version => exact .inr (.inl ⟨_, _, rfl⟩)
    | payload hparse hkind hpayload =>
      cases hpayload with
      | truncated _ field needed available => exact .inr (.inr (.inl ⟨_, _, _, rfl⟩))
      | length _ cause => exact .inr (.inr (.inr (.inl ⟨_, rfl⟩)))
      | scheme code => exact .inr (.inr (.inr (.inr ⟨_, _, rfl, hparse, hkind⟩)))

/-- Version 7 shares its decoder with version 6, and version 11 has none. A summary without profiles
is accepted by one decoder only. The file has a scheme of type 9 in its only profile. -/
theorem dispatch_agrees_with_decoders_shared :
    let h : Header :=
      { tag := "PNN", version := 7, major := 0, minor := 0, captureTime := 0, layout := .standard
        payload := [] }
    let stranger : Header := { h with version := 11 }
    let summary : Header :=
      { h with version := 8, layout := .compact, payload := [1, 2, 2, 2, 2, 2, 2, 1, 0] }
    let bytes := [0x50, 0x4E, 0x4E, 10, 0, 0, 0, 0, 0, 0, 1, 2, 2, 2, 2, 2, 2, 0, 0, 0, 0, 0, 0, 0,
      0, 0, 0, 4, 0, 0, 1, 9]
    h.kind? = some .preEqualizationLastUpdate ∧
      Decoder.rxMer.decode { h with payload := [1] } =
        .error (.wrongType .rxMer .preEqualizationLastUpdate) ∧
      Decoder.preEqualization.decode h = decode h ∧
      stranger.kind? = none ∧ Decoder.rxMer.decode stranger = decode stranger ∧
      (∃ c, decode summary = .ok c) ∧
      (∀ (d : Decoder) (c : Capture), d.decode summary = .ok c → d = .fecSummary) ∧
      ofBytes bytes = .error (.corrupted (.unknownScheme 9)) ∧
      ∃ h, Header.parse bytes = .ok h ∧ h.kind? = some .modulationProfile := by
  intro h stranger summary bytes
  obtain ⟨hunknown, hknown, -, hone, haccepts, hfaults⟩ := dispatch_agrees_with_decoders
  have hkind : h.kind? = some .preEqualizationLastUpdate := by decide
  have hstranger : stranger.kind? = none := by decide
  have hfault : ofBytes bytes = .error (.corrupted (.unknownScheme 9)) := by decide +kernel
  have haccepted : (Decoder.fecSummary.decode summary).isOk := by decide
  obtain ⟨c, hc⟩ : ∃ c, Decoder.fecSummary.decode summary = .ok c := by
    cases hdecode : Decoder.fecSummary.decode summary with
    | error fault =>
      rw [hdecode] at haccepted
      cases haccepted
    | ok c => exact ⟨c, rfl⟩
  obtain ⟨hboth, heach⟩ := hunknown stranger hstranger
  refine ⟨hkind, (hknown h _ hkind .rxMer).1 (by decide) [1],
    (hknown h _ hkind .preEqualization).2 rfl, hstranger, (heach .rxMer).trans hboth.symm,
    ⟨c, (haccepts _ _).2 ⟨_, hc⟩⟩, fun d c' hd => hone _ _ _ _ _ hd hc, hfault, ?_⟩
  rcases hfaults _ _ hfault with ⟨_, _, h⟩ | ⟨_, _, h⟩ | ⟨_, _, _, h⟩ | ⟨_, h⟩ |
    ⟨_, h, -, hparse, hkind⟩
  · cases h
  · cases h
  · cases h
  · cases h
  · exact ⟨h, hparse, hkind⟩

end Capture

end CableCapture
