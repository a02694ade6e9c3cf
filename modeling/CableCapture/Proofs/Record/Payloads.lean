import CableCapture.Capture
import CableCapture.Proofs.Chunks
import CableCapture.Proofs.Record.Items

/-!
# What payloads hold

For every kind of record the payloads that decode to it: the fields in front of the data, in their
order, and then the data behind its length. Every record's reader is sealed.
-/

namespace CableCapture

open Reader

/-! ## Records of samples -/

namespace SymbolCapture

/-- The fields in front of the data. -/
def front (r : SymbolCapture) : List UInt8 :=
  [r.channel] ++ r.mac.octets ++ BigEndian.ofUInt32 r.sampleRateHz ++
    BigEndian.ofUInt16 r.fftLength ++ BigEndian.ofUInt32 r.triggerGroup

theorem sealed_reader (preamble : Preamble) : (reader preamble).Sealed :=
  .bind (.uint8 _) fun _ => .bind (.mac _) fun _ => .bind (.uint32 _) fun _ =>
    .bind (.uint16 _) fun _ => .bind (.uint32 _) fun _ => .bind (.declared _) fun _ => .finish _ _

theorem decode_reader_eq_ok {preamble : Preamble} {payload : List UInt8} {r : SymbolCapture} :
    (reader preamble).decode payload = .ok r ↔
      r.preamble = preamble ∧ ∃ data, data.length < 2 ^ 32 ∧
        FixedPoint.q2_13.decodeStream data true = .ok r.samples ∧
        payload = r.front ++ declaredBytes data := by
  simp only [reader, decode_uint8_bind, decode_mac_bind, decode_uint32_bind, decode_uint16_bind,
    decode_declared_bind, decode_finish_bind_eq_ok, decode_check_bind, decode_pure,
    Except.ok.injEq]
  constructor
  · intro h
    obtain ⟨channel, _, rfl, mac, _, rfl, rate, _, rfl, fft, _, rfl, group, _, rfl, data, hlen, _,
      rfl, rfl, samples, hsamples, rfl⟩ := h
    exact ⟨rfl, data, hlen, hsamples, by simp [front]⟩
  · intro h
    obtain ⟨rfl, data, hlen, hsamples, rfl⟩ := h
    refine ⟨r.channel, _, ?_, r.mac, _, rfl, r.sampleRateHz, _, rfl, r.fftLength, _, rfl,
      r.triggerGroup, _, rfl, data, hlen, [], rfl, rfl, r.samples, hsamples, rfl⟩
    simp [front]

end SymbolCapture

namespace ChannelEstimate

/-- The fields in front of the data. -/
def front (r : ChannelEstimate) : List UInt8 :=
  [r.channel] ++ r.mac.octets ++ r.layout.toBytes

theorem sealed_reader (preamble : Preamble) : (reader preamble).Sealed :=
  .bind (.uint8 _) fun _ => .bind (.mac _) fun _ => .bind SubcarrierLayout.framed_reader fun _ =>
    .bind (.declared _) fun _ => .finish _ _

theorem decode_reader_eq_ok {preamble : Preamble} {payload : List UInt8} {r : ChannelEstimate} :
    (reader preamble).decode payload = .ok r ↔
      r.preamble = preamble ∧ ∃ data, data.length < 2 ^ 32 ∧
        FixedPoint.q2_13.decodeStream data true = .ok r.coefficients ∧
        payload = r.front ++ declaredBytes data := by
  simp only [reader, decode_uint8_bind, decode_mac_bind, SubcarrierLayout.decode_reader_bind,
    decode_declared_bind, decode_finish_bind_eq_ok, decode_check_bind, decode_pure,
    Except.ok.injEq]
  constructor
  · intro h
    obtain ⟨channel, _, rfl, mac, _, rfl, layout, _, rfl, data, hlen, _, rfl, rfl, coefficients,
      hcoefficients, rfl⟩ := h
    exact ⟨rfl, data, hlen, hcoefficients, by simp [front]⟩
  · intro h
    obtain ⟨rfl, data, hlen, hcoefficients, rfl⟩ := h
    refine ⟨r.channel, _, ?_, r.mac, _, rfl, r.layout, _, rfl, data, hlen, [], rfl, rfl,
      r.coefficients, hcoefficients, rfl⟩
    simp [front]

end ChannelEstimate

namespace Constellation

/-- The fields in front of the data. -/
def front (r : Constellation) : List UInt8 :=
  [r.channel] ++ r.mac.octets ++ BigEndian.ofUInt32 r.zeroFrequencyHz ++
    BigEndian.ofUInt16 r.modulationOrder ++ BigEndian.ofUInt16 r.sampleSymbols ++ [r.spacingKhz]

theorem sealed_reader (preamble : Preamble) : (reader preamble).Sealed :=
  .bind (.uint8 _) fun _ => .bind (.mac _) fun _ => .bind (.uint32 _) fun _ =>
    .bind (.uint16 _) fun _ => .bind (.uint16 _) fun _ => .bind (.uint8 _) fun _ =>
      .bind (.declared _) fun _ => .finish _ _

theorem decode_reader_eq_ok {preamble : Preamble} {payload : List UInt8} {r : Constellation} :
    (reader preamble).decode payload = .ok r ↔
      r.preamble = preamble ∧ ∃ data, data.length < 2 ^ 32 ∧
        FixedPoint.q2_13.decodeStream data true = .ok r.softDecisions ∧
        payload = r.front ++ declaredBytes data := by
  simp only [reader, decode_uint8_bind, decode_mac_bind, decode_uint32_bind, decode_uint16_bind,
    decode_declared_bind, decode_finish_bind_eq_ok, decode_check_bind, decode_pure,
    Except.ok.injEq]
  constructor
  · intro h
    obtain ⟨channel, _, rfl, mac, _, rfl, zero, _, rfl, order, _, rfl, symbols, _, rfl, spacing, _,
      rfl, data, hlen, _, rfl, rfl, decisions, hdecisions, rfl⟩ := h
    exact ⟨rfl, data, hlen, hdecisions, by simp [front]⟩
  · intro h
    obtain ⟨rfl, data, hlen, hdecisions, rfl⟩ := h
    refine ⟨r.channel, _, ?_, r.mac, _, rfl, r.zeroFrequencyHz, _, rfl, r.modulationOrder, _, rfl,
      r.sampleSymbols, _, rfl, r.spacingKhz, _, rfl, data, hlen, [], rfl, rfl, r.softDecisions,
      hdecisions, rfl⟩
    simp [front]

end Constellation

namespace PreEqualization

/-- The fields in front of the data. -/
def front (r : PreEqualization) : List UInt8 :=
  [r.channel] ++ r.modemMac.octets ++ r.terminationMac.octets ++ r.layout.toBytes

theorem sealed_reader (preamble : Preamble) : (reader preamble).Sealed :=
  .bind (.uint8 _) fun _ => .bind (.mac _) fun _ => .bind (.mac _) fun _ =>
    .bind SubcarrierLayout.framed_reader fun _ => .bind (.declared _) fun _ => .finish _ _

theorem decode_reader_eq_ok {preamble : Preamble} {payload : List UInt8} {r : PreEqualization} :
    (reader preamble).decode payload = .ok r ↔
      r.preamble = preamble ∧ ∃ data, data.length < 2 ^ 32 ∧
        FixedPoint.q1_14.decodeStream data true = .ok r.taps ∧
        payload = r.front ++ declaredBytes data := by
  simp only [reader, decode_uint8_bind, decode_mac_bind, SubcarrierLayout.decode_reader_bind,
    decode_declared_bind, decode_finish_bind_eq_ok, decode_check_bind, decode_pure,
    Except.ok.injEq]
  constructor
  · intro h
    obtain ⟨channel, _, rfl, modem, _, rfl, termination, _, rfl, layout, _, rfl, data, hlen, _, rfl,
      rfl, taps, htaps, rfl⟩ := h
    exact ⟨rfl, data, hlen, htaps, by simp [front]⟩
  · intro h
    obtain ⟨rfl, data, hlen, htaps, rfl⟩ := h
    refine ⟨r.channel, _, ?_, r.modemMac, _, rfl, r.terminationMac, _, rfl, r.layout, _, rfl, data,
      hlen, [], rfl, rfl, r.taps, htaps, rfl⟩
    simp [front]

end PreEqualization

/-! ## Records of numbers -/

namespace RxMer

/-- The fields in front of the data. -/
def front (r : RxMer) : List UInt8 :=
  [r.channel] ++ r.mac.octets ++ r.layout.toBytes

theorem sealed_reader (preamble : Preamble) : (reader preamble).Sealed :=
  .bind (.uint8 _) fun _ => .bind (.mac _) fun _ => .bind SubcarrierLayout.framed_reader fun _ =>
    .bind (.declared _) fun _ => .finish _ _

theorem decode_reader_eq_ok {preamble : Preamble} {payload : List UInt8} {r : RxMer} :
    (reader preamble).decode payload = .ok r ↔
      r.preamble = preamble ∧ ∃ data, data.length < 2 ^ 32 ∧ data.map levelOfCode = r.levels ∧
        payload = r.front ++ declaredBytes data := by
  simp only [reader, decode_uint8_bind, decode_mac_bind, SubcarrierLayout.decode_reader_bind,
    decode_declared_bind, decode_finish_bind_eq_ok, decode_pure, Except.ok.injEq]
  constructor
  · intro h
    obtain ⟨channel, _, rfl, mac, _, rfl, layout, _, rfl, data, hlen, _, rfl, rfl, rfl⟩ := h
    exact ⟨rfl, data, hlen, rfl, by simp [front]⟩
  · intro h
    obtain ⟨rfl, data, hlen, hlevels, rfl⟩ := h
    refine ⟨r.channel, _, ?_, r.mac, _, rfl, r.layout, _, rfl, data, hlen, [], rfl, rfl, ?_⟩
    · simp [front]
    · rw [hlevels]

end RxMer

namespace Histogram

theorem sealed_reader (preamble : Preamble) : (reader preamble).Sealed :=
  .bind (.mac _) fun _ => .bind (.uint8 _) fun _ => .bind (.declared _) fun _ =>
    .bind (.declared _) fun _ => .finish _ _

theorem counters_eq_ok {block : String} {data : List UInt8} {counts : List UInt32} :
    counters block data = .ok counts ↔ data = counts.flatMap BigEndian.ofUInt32 := by
  unfold counters
  constructor
  · intro h
    split at h
    · rename_i hlen
      rw [← Except.ok.inj h]
      refine (flatMap_map_chunksOf (by decide) hlen ?_).symm
      intro piece hpiece
      exact BigEndian.ofUInt32_toUInt32 hpiece
    · simp at h
  · intro h
    subst h
    rw [length_flatMap_of_length BigEndian.length_ofUInt32, if_pos (Nat.mul_mod_right 4 _),
      chunksOf_flatMap (by decide) BigEndian.length_ofUInt32, List.map_map]
    simp [Function.comp_def]

theorem decode_reader_eq_ok {preamble : Preamble} {payload : List UInt8} {r : Histogram} :
    (reader preamble).decode payload = .ok r ↔
      r.preamble = preamble ∧ (r.dwellCounts.flatMap BigEndian.ofUInt32).length < 2 ^ 32 ∧
        (r.hitCounts.flatMap BigEndian.ofUInt32).length < 2 ^ 32 ∧ payload = r.toPayload := by
  simp only [reader, decode_uint8_bind, decode_mac_bind, decode_declared_bind,
    decode_finish_bind_eq_ok, decode_check_bind, decode_pure, Except.ok.injEq, counters_eq_ok]
  constructor
  · intro h
    obtain ⟨mac, _, rfl, symmetry, _, rfl, _, hdwell, _, rfl, _, hhits, _, rfl, rfl, dwell, rfl, hits,
      rfl, rfl⟩ := h
    exact ⟨rfl, hdwell, hhits, by simp [toPayload]⟩
  · intro h
    obtain ⟨rfl, hdwell, hhits, rfl⟩ := h
    refine ⟨r.mac, _, ?_, r.symmetry, _, rfl, _, hdwell, _, rfl, _, hhits, [], rfl, rfl,
      r.dwellCounts, rfl, r.hitCounts, rfl, rfl⟩
    simp [toPayload]

end Histogram

namespace Spectrum

/-- The fields in front of the data. -/
def front (r : Spectrum) : List UInt8 :=
  [r.channel] ++ r.mac.octets ++ BigEndian.ofUInt32 r.firstCenterHz ++
    BigEndian.ofUInt32 r.lastCenterHz ++ BigEndian.ofUInt32 r.spanHz ++
    BigEndian.ofUInt16 r.binsPerSegment ++ BigEndian.ofUInt16 r.noiseBandwidth ++
    BigEndian.ofUInt16 r.windowFunction

theorem sealed_reader (preamble : Preamble) : (reader preamble).Sealed :=
  .bind (.uint8 _) fun _ => .bind (.mac _) fun _ => .bind (.uint32 _) fun _ =>
    .bind (.uint32 _) fun _ => .bind (.uint32 _) fun _ => .bind (.uint16 _) fun _ =>
      .bind (.uint16 _) fun _ => .bind (.uint16 _) fun _ => .bind (.declared _) fun _ =>
        .finish _ _

theorem decode_reader_eq_ok {preamble : Preamble} {payload : List UInt8} {r : Spectrum} :
    (reader preamble).decode payload = .ok r ↔
      r.preamble = preamble ∧ ∃ data, data.length < 2 ^ 32 ∧
        segmentsOf r.binsPerSegment data = .ok r.segments ∧
        payload = r.front ++ declaredBytes data := by
  simp only [reader, decode_uint8_bind, decode_mac_bind, decode_uint32_bind, decode_uint16_bind,
    decode_declared_bind, decode_finish_bind_eq_ok, decode_check_bind, decode_pure,
    Except.ok.injEq]
  constructor
  · intro h
    obtain ⟨channel, _, rfl, mac, _, rfl, first, _, rfl, last, _, rfl, span, _, rfl, bins, _, rfl,
      noise, _, rfl, window, _, rfl, data, hlen, _, rfl, rfl, segments, hsegments, rfl⟩ := h
    exact ⟨rfl, data, hlen, hsegments, by simp [front]⟩
  · intro h
    obtain ⟨rfl, data, hlen, hsegments, rfl⟩ := h
    refine ⟨r.channel, _, ?_, r.mac, _, rfl, r.firstCenterHz, _, rfl, r.lastCenterHz, _, rfl,
      r.spanHz, _, rfl, r.binsPerSegment, _, rfl, r.noiseBandwidth, _, rfl, r.windowFunction, _, rfl,
      data, hlen, [], rfl, rfl, r.segments, hsegments, rfl⟩
    simp [front]

end Spectrum

/-! ## Records of profiles -/

namespace FecSummary

theorem sealed_reader (preamble : Preamble) : (reader preamble).Sealed :=
  .bind (.uint8 _) fun _ => .bind (.mac _) fun _ => .bind (.uint8 _) fun _ =>
    .bind (.uint8 _) fun _ => .bind (FecProfile.framed_reader.times _) fun _ => .finish _ _

theorem decode_reader_eq_ok {preamble : Preamble} {payload : List UInt8} {r : FecSummary} :
    (reader preamble).decode payload = .ok r ↔
      r.preamble = preamble ∧ FecPeriod.ofCode r.period.code = r.period ∧
        r.profiles.length < 2 ^ 8 ∧ (∀ p ∈ r.profiles, p.Fits) ∧ payload = r.toPayload := by
  simp only [reader, decode_uint8_bind, decode_mac_bind,
    (FecProfile.framed_reader.times _).decode_bind_eq_ok,
    FecProfile.framed_reader.spells_times FecProfile.writes_reader, decode_finish_bind_eq_ok,
    decode_pure, Except.ok.injEq]
  constructor
  · intro h
    obtain ⟨channel, _, rfl, mac, _, rfl, period, _, rfl, count, _, rfl, profiles, _,
      ⟨hlen, hfits, rfl⟩, _, rfl, rfl, rfl⟩ := h
    have hcount := count.toNat_lt
    refine ⟨rfl, by simp, by simp only [hlen]; exact hcount, hfits, ?_⟩
    simp [toPayload, hlen, BigEndian.ofNat_one]
  · intro h
    obtain ⟨rfl, hperiod, hlen, hfits, rfl⟩ := h
    refine ⟨r.channel, _, ?_, r.mac, _, rfl, r.period.code, _, rfl, .ofNat r.profiles.length, _, rfl,
      r.profiles, _, ⟨(UInt8.toNat_ofNat_of_lt' hlen).symm, hfits, rfl⟩, [], rfl, rfl, ?_⟩
    · simp [toPayload, BigEndian.ofNat_one]
    · rw [hperiod]

end FecSummary

namespace ModulationProfiles

theorem sealed_reader (preamble : Preamble) : (reader preamble).Sealed :=
  .bind (.uint8 _) fun _ => .bind (.mac _) fun _ => .bind SubcarrierLayout.framed_reader fun _ =>
    .bind (.declared _) fun _ => .finish _ _

theorem decode_reader_eq_ok {preamble : Preamble} {payload : List UInt8} {r : ModulationProfiles} :
    (reader preamble).decode payload = .ok r ↔
      r.preamble = preamble ∧ (r.profiles.flatMap ModulationProfile.toBytes).length < 2 ^ 32 ∧
        (∀ p ∈ r.profiles, p.Fits) ∧ payload = r.toPayload := by
  simp only [reader, decode_uint8_bind, decode_mac_bind, SubcarrierLayout.decode_reader_bind,
    decode_declared_bind, decode_finish_bind_eq_ok, decode_check_bind, decode_pure,
    Except.ok.injEq, profilesOf_eq_ok]
  constructor
  · intro h
    obtain ⟨channel, _, rfl, mac, _, rfl, layout, _, rfl, _, hlen, _, rfl, rfl, profiles,
      ⟨hfits, rfl⟩, rfl⟩ := h
    exact ⟨rfl, hlen, hfits, by simp [toPayload]⟩
  · intro h
    obtain ⟨rfl, hlen, hfits, rfl⟩ := h
    refine ⟨r.channel, _, ?_, r.mac, _, rfl, r.layout, _, rfl, _, hlen, [], rfl, rfl, r.profiles,
      ⟨hfits, rfl⟩, rfl⟩
    simp [toPayload]

end ModulationProfiles

end CableCapture
