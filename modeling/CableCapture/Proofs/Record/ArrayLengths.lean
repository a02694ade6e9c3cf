import CableCapture.Proofs.Capture.Decoding
import CableCapture.Proofs.Capture.Header
import CableCapture.Proofs.Chunks
import CableCapture.Proofs.Numeric.FixedPoint
import CableCapture.Proofs.Reader.Positions

/-!
# Lengths of array payloads

Six layouts have fields of fixed sizes, a length and one block of equally wide items. The length of
the payload and the announced one decide whether it is accepted, too short or of a wrong length, and
every field and every item of an accepted payload is read from its own position. Histograms have two
blocks of counters.
-/

namespace CableCapture

open Reader

/-! ## The law of lengths -/

/-- An answer that depends on two lengths, that of the payload and the one that it announces: a
record where the announced block is there, is whole and ends the payload, a truncation where bytes
are missing, and a wrong length otherwise. -/
structure LengthLaw {α : Type} (answer : Except Fault α) (payload : List UInt8) (front : Nat)
    (Whole : Nat → Prop) (Holds : α → Prop) : Prop where
  accepted : (∃ r, answer = .ok r) ↔
    payload.length = front + announced payload front ∧ Whole (announced payload front)
  truncated :
    (∃ field needed available, answer = .error (.truncatedPayload field needed available)) ↔
      payload.length < front ∨ payload.length < front + announced payload front
  mismatched : (∃ cause, answer = .error (.lengthMismatch cause)) ↔
    ¬(payload.length < front ∨ payload.length < front + announced payload front) ∧
      ¬(payload.length = front + announced payload front ∧ Whole (announced payload front))
  holds : ∀ r, answer = .ok r → Holds r

section Laws

variable {α : Type} {payload : List UInt8} {front : Nat} {answer : Except Fault α}
  {Whole : Nat → Prop} {Holds : α → Prop}

theorem Reader.ReadsBlock.lengthLaw {read : List UInt8 → Except Fault α}
    (h : ReadsBlock payload front read answer)
    (hread : payload.length = front + announced payload front →
      Whole (announced payload front) ∧ (∃ r, read (payload.drop front) = .ok r ∧ Holds r) ∨
      ¬Whole (announced payload front) ∧
        ∃ cause, read (payload.drop front) = .error (.lengthMismatch cause)) :
    LengthLaw answer payload front Whole Holds := by
  cases h with
  | short field needed available missing =>
    have hlength : payload.length ≠ front + announced payload front := by omega
    constructor <;> simp [missing, hlength]
  | long context fits more =>
    have hlength : payload.length ≠ front + announced payload front := by omega
    have hmissing :
        ¬(payload.length < front ∨ payload.length < front + announced payload front) := by omega
    constructor <;> simp [hmissing, hlength]
  | exact fills =>
    rcases hread fills with ⟨hwhole, r, hr, hholds⟩ | ⟨hwhole, cause, hcause⟩
    · rw [hr]
      constructor <;> simp [fills, hwhole, hholds]
    · rw [hcause]
      constructor <;> simp [fills, hwhole]

/-- A record of complex samples of four bytes. -/
theorem LengthLaw.ofSamples {f : FixedPoint} (hwidth : f.byteWidth = .ok 2)
    {make : List Complex → α} {samples : α → List Complex} (hsamples : ∀ s, samples (make s) = s)
    (h : ReadsBlock payload front (fun data => (f.decodeStream data true).map make) answer) :
    LengthLaw answer payload front (4 ∣ ·) fun r =>
      r = make (samples r) ∧ (samples r).length = announced payload front / 4 ∧
        InOrder 4 (f.decodeSample 2 true) (payload.drop front) (samples r) := by
  apply h.lengthLaw
  intro hfills
  have hlength : (payload.drop front).length = announced payload front := by
    rw [List.length_drop]
    omega
  rw [f.decodeStream_eq hwidth, hlength]
  by_cases hwhole : announced payload front % (2 * 2) = 0
  · have horder : InOrder 4 (f.decodeSample 2 true) (payload.drop front)
        ((chunksOf 4 (payload.drop front)).map (f.decodeSample 2 true)) :=
      inOrder_chunksOf (by decide) (hlength ▸ Nat.dvd_of_mod_eq_zero hwhole)
    rw [if_pos hwhole]
    refine .inl ⟨Nat.dvd_of_mod_eq_zero hwhole, _, rfl, ?_⟩
    rw [hsamples]
    exact ⟨rfl, hlength ▸ horder.length_eq, horder⟩
  · exact .inr ⟨mt Nat.mod_eq_zero_of_dvd hwhole, _, by rw [if_neg hwhole]; rfl⟩

end Laws

theorem decode_check_bind_pure {α β : Type} (answer : Except Fault α) (f : α → β)
    (bytes : List UInt8) :
    (check answer >>= fun a => Pure.pure (f a)).decode bytes = answer.map f := by
  cases answer <;> rfl

/-! ## Records -/

namespace SymbolCapture

/-- Every field and every sample is read from its own position. -/
def Placed (preamble : Preamble) (payload : List UInt8) (r : SymbolCapture) : Prop :=
  r = { preamble, channel := byteAt payload 0, mac := macAt payload 1
        sampleRateHz := uint32At payload 7, fftLength := uint16At payload 11
        triggerGroup := uint32At payload 13, samples := r.samples } ∧
    r.samples.length = announced payload 21 / 4 ∧
    InOrder 4 (FixedPoint.q2_13.decodeSample 2 true) (payload.drop 21) r.samples

theorem lengthLaw {h : Header} (hkind : h.kind? = some .symbolCapture) :
    LengthLaw (decode h) h.payload 21 (4 ∣ ·) (Placed (h.preamble .symbolCapture) h.payload) := by
  have hdecode : decode h = (reader (h.preamble .symbolCapture)).decode h.payload :=
    Header.expect_bind (Header.kind_eq_ok.2 hkind) (by decide)
  rw [hdecode]
  refine .ofSamples (f := FixedPoint.q2_13) rfl (fun _ => rfl) ?_
  exact .field 0 (readsAt_uint8 _) (by decide) <| .field 1 (readsAt_mac _) (by decide) <|
    .field 7 (readsAt_uint32 _) (by decide) <| .field 11 (readsAt_uint16 _) (by decide) <|
    .field 13 (readsAt_uint32 _) (by decide) <| .declared fun _ => decode_check_bind_pure _ _ _

end SymbolCapture

namespace ChannelEstimate

/-- Every field and every coefficient is read from its own position. -/
def Placed (preamble : Preamble) (payload : List UInt8) (r : ChannelEstimate) : Prop :=
  r = { preamble, channel := byteAt payload 0, mac := macAt payload 1, layout := layoutAt payload 7
        coefficients := r.coefficients } ∧
    r.coefficients.length = announced payload 18 / 4 ∧
    InOrder 4 (FixedPoint.q2_13.decodeSample 2 true) (payload.drop 18) r.coefficients

theorem lengthLaw {h : Header} (hkind : h.kind? = some .channelEstimate) :
    LengthLaw (decode h) h.payload 18 (4 ∣ ·) (Placed (h.preamble .channelEstimate) h.payload) := by
  have hdecode : decode h = (reader (h.preamble .channelEstimate)).decode h.payload :=
    Header.expect_bind (Header.kind_eq_ok.2 hkind) (by decide)
  rw [hdecode]
  refine .ofSamples (f := FixedPoint.q2_13) rfl (fun _ => rfl) ?_
  exact .field 0 (readsAt_uint8 _) (by decide) <| .field 1 (readsAt_mac _) (by decide) <|
    .field 7 readsAt_layout (by decide) <| .declared fun _ => decode_check_bind_pure _ _ _

end ChannelEstimate

namespace Constellation

/-- Every field and every decision is read from its own position. -/
def Placed (preamble : Preamble) (payload : List UInt8) (r : Constellation) : Prop :=
  r = { preamble, channel := byteAt payload 0, mac := macAt payload 1
        zeroFrequencyHz := uint32At payload 7, modulationOrder := uint16At payload 11
        sampleSymbols := uint16At payload 13, spacingKhz := byteAt payload 15
        softDecisions := r.softDecisions } ∧
    r.softDecisions.length = announced payload 20 / 4 ∧
    InOrder 4 (FixedPoint.q2_13.decodeSample 2 true) (payload.drop 20) r.softDecisions

theorem lengthLaw {h : Header} (hkind : h.kind? = some .constellation) :
    LengthLaw (decode h) h.payload 20 (4 ∣ ·) (Placed (h.preamble .constellation) h.payload) := by
  have hdecode : decode h = (reader (h.preamble .constellation)).decode h.payload :=
    Header.expect_bind (Header.kind_eq_ok.2 hkind) (by decide)
  rw [hdecode]
  refine .ofSamples (f := FixedPoint.q2_13) rfl (fun _ => rfl) ?_
  exact .field 0 (readsAt_uint8 _) (by decide) <| .field 1 (readsAt_mac _) (by decide) <|
    .field 7 (readsAt_uint32 _) (by decide) <| .field 11 (readsAt_uint16 _) (by decide) <|
    .field 13 (readsAt_uint16 _) (by decide) <| .field 15 (readsAt_uint8 _) (by decide) <|
    .declared fun _ => decode_check_bind_pure _ _ _

end Constellation

namespace PreEqualization

/-- Every field and every tap is read from its own position. -/
def Placed (preamble : Preamble) (payload : List UInt8) (r : PreEqualization) : Prop :=
  r = { preamble, channel := byteAt payload 0, modemMac := macAt payload 1
        terminationMac := macAt payload 7, layout := layoutAt payload 13, taps := r.taps } ∧
    r.taps.length = announced payload 24 / 4 ∧
    InOrder 4 (FixedPoint.q1_14.decodeSample 2 true) (payload.drop 24) r.taps

theorem lengthLaw {h : Header} {kind : CaptureKind} (hkind : h.kind? = some kind)
    (hmem : kind ∈ [CaptureKind.preEqualization, .preEqualizationLastUpdate]) :
    LengthLaw (decode h) h.payload 24 (4 ∣ ·) (Placed (h.preamble kind) h.payload) := by
  have hdecode : decode h = (reader (h.preamble kind)).decode h.payload :=
    Header.expect_bind (Header.kind_eq_ok.2 hkind) hmem
  rw [hdecode]
  refine .ofSamples (f := FixedPoint.q1_14) rfl (fun _ => rfl) ?_
  exact .field 0 (readsAt_uint8 _) (by decide) <| .field 1 (readsAt_mac _) (by decide) <|
    .field 7 (readsAt_mac _) (by decide) <| .field 13 readsAt_layout (by decide) <|
    .declared fun _ => decode_check_bind_pure _ _ _

end PreEqualization

namespace RxMer

/-- Every field and every level is read from its own position. -/
def Placed (preamble : Preamble) (payload : List UInt8) (r : RxMer) : Prop :=
  r = { preamble, channel := byteAt payload 0, mac := macAt payload 1, layout := layoutAt payload 7
        levels := (payload.drop 18).map levelOfCode } ∧
    r.levels.length = announced payload 18

theorem lengthLaw {h : Header} (hkind : h.kind? = some .rxMer) :
    LengthLaw (decode h) h.payload 18 (fun _ => True) (Placed (h.preamble .rxMer) h.payload) := by
  have hdecode : decode h = (reader (h.preamble .rxMer)).decode h.payload :=
    Header.expect_bind (Header.kind_eq_ok.2 hkind) (by decide)
  have hreads : ReadsBlock h.payload 18 (fun data => .ok
      { preamble := h.preamble .rxMer, channel := byteAt h.payload 0, mac := macAt h.payload 1
        layout := layoutAt h.payload 7, levels := data.map levelOfCode }) (decode h) := by
    rw [hdecode]
    exact .field 0 (readsAt_uint8 _) (by decide) <| .field 1 (readsAt_mac _) (by decide) <|
      .field 7 readsAt_layout (by decide) <| .declared fun _ => rfl
  refine hreads.lengthLaw fun hfills => .inl ⟨trivial, _, rfl, rfl, ?_⟩
  rw [List.length_map, List.length_drop]
  omega

end RxMer

namespace Spectrum

/-- A block of amplitudes has whole bins, and bins in a segment if there are any at all. -/
theorem segmentsOf_cases (binsPerSegment : UInt16) (data : List UInt8) :
    (2 ∣ data.length ∧ (binsPerSegment ≠ 0 ∨ data.length = 0)) ∧
        (∃ segments, segmentsOf binsPerSegment data = .ok segments ∧
          InOrder 2 (fun code => amplitudeOfCode (BigEndian.toInt16 code)) data segments.flatten ∧
          segments = chunksOf binsPerSegment.toNat segments.flatten) ∨
      ¬(2 ∣ data.length ∧ (binsPerSegment ≠ 0 ∨ data.length = 0)) ∧
        ∃ cause, segmentsOf binsPerSegment data = .error (.lengthMismatch cause) := by
  unfold segmentsOf
  by_cases hodd : data.length % 2 ≠ 0
  · rw [if_pos hodd]
    exact .inr ⟨fun hwhole => hodd (Nat.mod_eq_zero_of_dvd hwhole.1), _, rfl⟩
  have hwhole : 2 ∣ data.length := Nat.dvd_of_mod_eq_zero (not_not.1 hodd)
  rw [if_neg hodd]
  cases data with
  | nil =>
    refine .inl ⟨⟨hwhole, .inr rfl⟩, [], rfl, ?_, by simp⟩
    exact (inOrder_iff (by decide) hwhole).2 (by simp)
  | cons first others =>
    rw [if_neg (by simp)]
    by_cases hbins : binsPerSegment = 0
    · rw [if_pos hbins]
      exact .inr ⟨by simp [hbins], _, rfl⟩
    · have hpos : 0 < binsPerSegment.toNat :=
        Nat.pos_of_ne_zero fun hzero => hbins (UInt16.toNat_inj.1 hzero)
      rw [if_neg hbins]
      refine .inl ⟨⟨hwhole, .inl hbins⟩, _, rfl, ?_, ?_⟩
      · rw [flatten_chunksOf hpos]
        exact inOrder_chunksOf (by decide) hwhole
      · rw [flatten_chunksOf hpos]

/-- Every field and every amplitude is read from its own position, and the segments are pieces of the
amplitudes. -/
def Placed (preamble : Preamble) (payload : List UInt8) (r : Spectrum) : Prop :=
  r = { preamble, channel := byteAt payload 0, mac := macAt payload 1
        firstCenterHz := uint32At payload 7, lastCenterHz := uint32At payload 11
        spanHz := uint32At payload 15, binsPerSegment := uint16At payload 19
        noiseBandwidth := uint16At payload 21, windowFunction := uint16At payload 23
        segments := r.segments } ∧
    r.amplitudes.length = announced payload 29 / 2 ∧
    InOrder 2 (fun code => amplitudeOfCode (BigEndian.toInt16 code)) (payload.drop 29)
      r.amplitudes ∧
    r.segments = chunksOf r.binsPerSegment.toNat r.amplitudes

theorem lengthLaw {h : Header} (hkind : h.kind? = some .spectrum) :
    LengthLaw (decode h) h.payload 29
      (fun n => 2 ∣ n ∧ (uint16At h.payload 19 ≠ 0 ∨ n = 0))
      (Placed (h.preamble .spectrum) h.payload) := by
  have hdecode : decode h = (reader (h.preamble .spectrum)).decode h.payload :=
    Header.expect_bind (Header.kind_eq_ok.2 hkind) (by decide)
  have hreads : ReadsBlock h.payload 29 (fun data =>
      (segmentsOf (uint16At h.payload 19) data).map fun segments =>
        { preamble := h.preamble .spectrum, channel := byteAt h.payload 0, mac := macAt h.payload 1
          firstCenterHz := uint32At h.payload 7, lastCenterHz := uint32At h.payload 11
          spanHz := uint32At h.payload 15, binsPerSegment := uint16At h.payload 19
          noiseBandwidth := uint16At h.payload 21, windowFunction := uint16At h.payload 23
          segments }) (decode h) := by
    rw [hdecode]
    exact .field 0 (readsAt_uint8 _) (by decide) <| .field 1 (readsAt_mac _) (by decide) <|
      .field 7 (readsAt_uint32 _) (by decide) <| .field 11 (readsAt_uint32 _) (by decide) <|
      .field 15 (readsAt_uint32 _) (by decide) <| .field 19 (readsAt_uint16 _) (by decide) <|
      .field 21 (readsAt_uint16 _) (by decide) <| .field 23 (readsAt_uint16 _) (by decide) <|
      .declared fun _ => decode_check_bind_pure _ _ _
  apply hreads.lengthLaw
  intro hfills
  have hlength : (h.payload.drop 29).length = announced h.payload 29 := by
    rw [List.length_drop]
    omega
  rw [← hlength]
  rcases segmentsOf_cases (uint16At h.payload 19) (h.payload.drop 29) with
    ⟨hwhole, segments, hsegments, horder, hcut⟩ | ⟨hwhole, cause, hcause⟩
  · rw [hsegments]
    exact .inl ⟨hwhole, _, rfl, rfl, hlength ▸ horder.length_eq, horder, hcut⟩
  · rw [hcause]
    exact .inr ⟨hwhole, cause, rfl⟩

end Spectrum

/-! ## Histograms -/

namespace Histogram

theorem counters_eq_ok_iff {block : String} {data : List UInt8} {counts : List UInt32} :
    counters block data = .ok counts ↔
      4 ∣ data.length ∧ InOrder 4 BigEndian.toUInt32 data counts := by
  unfold counters
  by_cases hwhole : data.length % 4 = 0
  · have hdvd := Nat.dvd_of_mod_eq_zero hwhole
    rw [if_pos hwhole, inOrder_iff (by decide) hdvd, Except.ok.injEq]
    exact ⟨fun h => ⟨hdvd, h.symm⟩, fun h => h.2.symm⟩
  · rw [if_neg hwhole]
    simp only [reduceCtorEq, false_iff]
    exact fun h => hwhole (Nat.mod_eq_zero_of_dvd h.1)

/-- Two blocks of counters behind an address and a symmetry, and nothing else. -/
structure Blocks (payload : List UInt8) (mac : MacAddress) (symmetry : UInt8)
    (dwell hits : List UInt8) : Prop where
  payload_eq : payload = mac.octets ++ [symmetry] ++ declaredBytes dwell ++ declaredBytes hits
  dwell_lt : dwell.length < 2 ^ 32
  hits_lt : hits.length < 2 ^ 32
  dwell_whole : 4 ∣ dwell.length
  hits_whole : 4 ∣ hits.length

theorem decode_eq_ok_iff {h : Header} (hkind : h.kind? = some .histogram) {r : Histogram} :
    decode h = .ok r ↔
      r.preamble = h.preamble .histogram ∧ ∃ dwell hits,
        Blocks h.payload r.mac r.symmetry dwell hits ∧
        InOrder 4 BigEndian.toUInt32 dwell r.dwellCounts ∧
        InOrder 4 BigEndian.toUInt32 hits r.hitCounts := by
  have hdecode : decode h = (reader (h.preamble .histogram)).decode h.payload :=
    Header.expect_bind (Header.kind_eq_ok.2 hkind) (by decide)
  rw [hdecode]
  simp only [reader, decode_uint8_bind, decode_mac_bind, decode_declared_bind,
    decode_finish_bind_eq_ok, decode_check_bind, decode_pure, Except.ok.injEq, counters_eq_ok_iff]
  constructor
  · rintro ⟨mac, _, hpayload, symmetry, _, rfl, dwell, hdwell, _, rfl, hits, hhits, _, rfl, rfl,
      dwellCounts, ⟨hdwellWhole, hdwellCounts⟩, hitCounts, ⟨hhitsWhole, hhitCounts⟩, rfl⟩
    refine ⟨rfl, dwell, hits, ⟨?_, hdwell, hhits, hdwellWhole, hhitsWhole⟩, hdwellCounts,
      hhitCounts⟩
    simpa using hpayload
  · rintro ⟨hpreamble, dwell, hits, ⟨hpayload, hdwell, hhits, hdwellWhole, hhitsWhole⟩,
      hdwellCounts, hhitCounts⟩
    refine ⟨r.mac, _, ?_, r.symmetry, _, rfl, dwell, hdwell, _, rfl, hits, hhits, [], rfl, rfl,
      r.dwellCounts, ⟨hdwellWhole, hdwellCounts⟩, r.hitCounts, ⟨hhitsWhole, hhitCounts⟩, ?_⟩
    · simpa using hpayload
    · rw [← hpreamble]

theorem exists_decode_eq_ok_iff {h : Header} (hkind : h.kind? = some .histogram) :
    (∃ r, decode h = .ok r) ↔ ∃ mac symmetry dwell hits,
      Blocks h.payload mac symmetry dwell hits := by
  simp only [decode_eq_ok_iff hkind]
  constructor
  · rintro ⟨r, -, dwell, hits, hblocks, -⟩
    exact ⟨r.mac, r.symmetry, dwell, hits, hblocks⟩
  · rintro ⟨mac, symmetry, dwell, hits, hblocks⟩
    exact ⟨⟨h.preamble .histogram, mac, symmetry, _, _⟩, rfl, dwell, hits, hblocks,
      inOrder_chunksOf (by decide) hblocks.dwell_whole,
      inOrder_chunksOf (by decide) hblocks.hits_whole⟩

end Histogram

/-- What the lengths decide about every array payload: that of symbol captures, channel estimates,
constellations, levels, equalizer taps and spectra. A histogram is accepted where its payload is two
blocks of counters behind an address and a byte. -/
theorem lengths_decide (h : Header) :
    (h.kind? = some .symbolCapture → LengthLaw (SymbolCapture.decode h) h.payload 21 (4 ∣ ·)
      (SymbolCapture.Placed (h.preamble .symbolCapture) h.payload)) ∧
    (h.kind? = some .channelEstimate → LengthLaw (ChannelEstimate.decode h) h.payload 18 (4 ∣ ·)
      (ChannelEstimate.Placed (h.preamble .channelEstimate) h.payload)) ∧
    (h.kind? = some .constellation → LengthLaw (Constellation.decode h) h.payload 20 (4 ∣ ·)
      (Constellation.Placed (h.preamble .constellation) h.payload)) ∧
    (h.kind? = some .rxMer → LengthLaw (RxMer.decode h) h.payload 18 (fun _ => True)
      (RxMer.Placed (h.preamble .rxMer) h.payload)) ∧
    (∀ kind ∈ [CaptureKind.preEqualization, .preEqualizationLastUpdate], h.kind? = some kind →
      LengthLaw (PreEqualization.decode h) h.payload 24 (4 ∣ ·)
        (PreEqualization.Placed (h.preamble kind) h.payload)) ∧
    (h.kind? = some .spectrum → LengthLaw (Spectrum.decode h) h.payload 29
      (fun n => 2 ∣ n ∧ (uint16At h.payload 19 ≠ 0 ∨ n = 0))
      (Spectrum.Placed (h.preamble .spectrum) h.payload)) ∧
    (h.kind? = some .histogram →
      ((∃ r, Histogram.decode h = .ok r) ↔ ∃ mac symmetry dwell hits,
        Histogram.Blocks h.payload mac symmetry dwell hits) ∧
      ∀ r, Histogram.decode h = .ok r ↔
        r.preamble = h.preamble .histogram ∧ ∃ dwell hits,
          Histogram.Blocks h.payload r.mac r.symmetry dwell hits ∧
          InOrder 4 BigEndian.toUInt32 dwell r.dwellCounts ∧
          InOrder 4 BigEndian.toUInt32 hits r.hitCounts) :=
  ⟨SymbolCapture.lengthLaw, ChannelEstimate.lengthLaw, Constellation.lengthLaw, RxMer.lengthLaw,
    fun _ hmem hkind => PreEqualization.lengthLaw hkind hmem, Spectrum.lengthLaw,
    fun hkind =>
      ⟨Histogram.exists_decode_eq_ok_iff hkind, fun _ => Histogram.decode_eq_ok_iff hkind⟩⟩

/-- Two levels; the same with one of them missing and with a byte too many; two bytes of a spectrum
without bins; three bytes of a symbol; one dwell counter. -/
theorem lengths_decide_each_way :
    let front : List UInt8 := [3, 2, 0, 0, 0, 0, 1, 0, 0, 0, 5, 0, 6, 50, 0, 0, 0, 2]
    let levels : Header :=
      { tag := "PNN", version := 4, major := 0, minor := 0, captureTime := 0, layout := .standard
        payload := front ++ [160, 161] }
    let cut : Header := { levels with payload := front ++ [160] }
    let padded : Header := { levels with payload := front ++ [160, 161, 162] }
    let spectrum : Header :=
      { levels with version := 9, payload := List.replicate 28 0 ++ [2, 0, 0] }
    let symbol : Header :=
      { levels with version := 1, payload := List.replicate 20 0 ++ [3, 0, 0, 0] }
    let histogram : Header :=
      { levels with
        version := 5
        payload := [2, 0, 0, 0, 0, 1, 7] ++ declaredBytes [0, 0, 1, 0] ++ declaredBytes [] }
    (∃ r, RxMer.decode levels = .ok r ∧ r.levels.length = 2 ∧ r.layout = ⟨5, 6, 50⟩) ∧
      (∃ field needed available,
        RxMer.decode cut = .error (.truncatedPayload field needed available)) ∧
      (∃ cause, RxMer.decode padded = .error (.lengthMismatch cause)) ∧
      (∃ cause, Spectrum.decode spectrum = .error (.lengthMismatch cause)) ∧
      (∃ cause, SymbolCapture.decode symbol = .error (.lengthMismatch cause)) ∧
      ∃ r, Histogram.decode histogram = .ok r := by
  intro front levels cut padded spectrum symbol histogram
  have hlevels := (lengths_decide levels).2.2.2.1 (by decide)
  have hcut := (lengths_decide cut).2.2.2.1 (by decide)
  have hpadded := (lengths_decide padded).2.2.2.1 (by decide)
  have hspectrum := (lengths_decide spectrum).2.2.2.2.2.1 (by decide)
  have hsymbol := (lengths_decide symbol).1 (by decide)
  have hhistogram := (lengths_decide histogram).2.2.2.2.2.2 (by decide)
  refine ⟨?_, hcut.truncated.2 (by decide), hpadded.mismatched.2 (by decide),
    hspectrum.mismatched.2 (by decide), hsymbol.mismatched.2 (by decide), ?_⟩
  · obtain ⟨r, hr⟩ := hlevels.accepted.2 (by decide)
    obtain ⟨hfields, hcount⟩ := hlevels.holds r hr
    refine ⟨r, hr, hcount.trans (by decide), ?_⟩
    rw [hfields]
    decide
  · exact hhistogram.1.2 ⟨⟨[2, 0, 0, 0, 0, 1], rfl⟩, 7, [0, 0, 1, 0], [], rfl, by decide, by decide,
      by decide, by decide⟩

end CableCapture
