import CableCapture.Proofs.Record.Payloads

/-!
# What decodes to a capture

Once the kind of a header is known, decoding is one reader of the payload, which the kind selects.
A header decodes to a capture exactly when the kind is one of the capture's shape, the preambles
agree and the record's reader accepts the payload.
-/

namespace CableCapture

namespace Header

variable {h : Header} {kind first : CaptureKind} {others : List CaptureKind}

theorem expect_of_mem (hkind : h.kind = .ok kind) (hmem : kind ∈ first :: others) :
    h.expect first others = .ok (h.preamble kind) := by
  unfold Header.expect
  rw [hkind]
  exact if_pos hmem

theorem expect_of_not_mem (hkind : h.kind = .ok kind) (hmem : kind ∉ first :: others) :
    h.expect first others = .error (.wrongType first kind) := by
  unfold Header.expect
  rw [hkind]
  exact if_neg hmem

theorem expect_of_error {fault : Fault} (hkind : h.kind = .error fault) :
    h.expect first others = .error fault := by
  unfold Header.expect
  rw [hkind]
  rfl

theorem expect_eq_ok {preamble : Preamble} :
    h.expect first others = .ok preamble ↔
      ∃ kind ∈ first :: others, h.kind = .ok kind ∧ h.preamble kind = preamble := by
  cases hkind : h.kind with
  | error fault =>
    rw [expect_of_error hkind]
    simp
  | ok kind =>
    by_cases hmem : kind ∈ first :: others
    · rw [expect_of_mem hkind hmem]
      constructor
      · intro hpreamble
        exact ⟨kind, hmem, rfl, Except.ok.inj hpreamble⟩
      · rintro ⟨same, -, hsame, rfl⟩
        rw [Except.ok.inj hsame]
    · rw [expect_of_not_mem hkind hmem]
      refine iff_of_false (by simp) ?_
      rintro ⟨same, hsame, heq, -⟩
      exact hmem (Except.ok.inj heq ▸ hsame)

/-- Where the kind is expected, a decoder goes on with the preamble. -/
theorem expect_bind {α : Type} {next : Preamble → Except Fault α} (hkind : h.kind = .ok kind)
    (hmem : kind ∈ first :: others) : h.expect first others >>= next = next (h.preamble kind) := by
  rw [expect_of_mem hkind hmem, ok_bind]

end Header

namespace Capture

/-- The payload of a capture of the kind that the preamble names. -/
def reader (preamble : Preamble) : Reader Capture :=
  match preamble.kind with
  | .symbolCapture => symbolCapture <$> SymbolCapture.reader preamble
  | .channelEstimate => channelEstimate <$> ChannelEstimate.reader preamble
  | .constellation => constellation <$> Constellation.reader preamble
  | .rxMer => rxMer <$> RxMer.reader preamble
  | .histogram => histogram <$> Histogram.reader preamble
  | .preEqualization | .preEqualizationLastUpdate =>
    preEqualization <$> PreEqualization.reader preamble
  | .fecSummary => fecSummary <$> FecSummary.reader preamble
  | .spectrum => spectrum <$> Spectrum.reader preamble
  | .modulationProfile => modulationProfile <$> ModulationProfiles.reader preamble
  | .latencyReport => throw (.noDecoder .latencyReport)

/-- Where the header is of an expected kind, a record's decoder is its reader. -/
theorem decode_expected {α : Type} {h : Header} {kind first : CaptureKind}
    {others : List CaptureKind} (hkind : h.kind = .ok kind) (hmem : kind ∈ first :: others)
    (wrap : α → Capture) (item : Preamble → Reader α) :
    (do return wrap (← (do (item (← h.expect first others)).decode h.payload))) =
      (wrap <$> item (h.preamble kind)).decode h.payload := by
  rw [Header.expect_of_mem hkind hmem, Reader.decode_map]
  rfl

theorem decode_of_kind {h : Header} {kind : CaptureKind} (hkind : h.kind = .ok kind) :
    decode h = (reader (h.preamble kind)).decode h.payload := by
  unfold decode
  rw [hkind, ok_bind]
  cases kind with
  | symbolCapture => exact decode_expected hkind (by decide) symbolCapture SymbolCapture.reader
  | channelEstimate =>
    exact decode_expected hkind (by decide) channelEstimate ChannelEstimate.reader
  | constellation => exact decode_expected hkind (by decide) constellation Constellation.reader
  | rxMer => exact decode_expected hkind (by decide) rxMer RxMer.reader
  | histogram => exact decode_expected hkind (by decide) histogram Histogram.reader
  | preEqualization =>
    exact decode_expected hkind (by decide) preEqualization PreEqualization.reader
  | preEqualizationLastUpdate =>
    exact decode_expected hkind (by decide) preEqualization PreEqualization.reader
  | fecSummary => exact decode_expected hkind (by decide) fecSummary FecSummary.reader
  | spectrum => exact decode_expected hkind (by decide) spectrum Spectrum.reader
  | modulationProfile =>
    exact decode_expected hkind (by decide) modulationProfile ModulationProfiles.reader
  | latencyReport => rfl

theorem decode_eq_ok_of_kind {h : Header} {c : Capture} :
    decode h = .ok c ↔
      ∃ kind, h.kind = .ok kind ∧ (reader (h.preamble kind)).decode h.payload = .ok c := by
  cases hkind : h.kind with
  | error fault =>
    unfold decode
    rw [hkind]
    simp [bind, Except.bind]
  | ok kind => simp [decode_of_kind hkind]

/-- The kinds of header under which a record of this shape is read. -/
def kinds : Capture → List CaptureKind
  | symbolCapture _ => [.symbolCapture]
  | channelEstimate _ => [.channelEstimate]
  | constellation _ => [.constellation]
  | rxMer _ => [.rxMer]
  | histogram _ => [.histogram]
  | preEqualization _ => [.preEqualization, .preEqualizationLastUpdate]
  | fecSummary _ => [.fecSummary]
  | spectrum _ => [.spectrum]
  | modulationProfile _ => [.modulationProfile]

/-- The payload is one of the record. -/
def Reads (payload : List UInt8) : Capture → Prop
  | symbolCapture r => (SymbolCapture.reader r.preamble).decode payload = .ok r
  | channelEstimate r => (ChannelEstimate.reader r.preamble).decode payload = .ok r
  | constellation r => (Constellation.reader r.preamble).decode payload = .ok r
  | rxMer r => (RxMer.reader r.preamble).decode payload = .ok r
  | histogram r => (Histogram.reader r.preamble).decode payload = .ok r
  | preEqualization r => (PreEqualization.reader r.preamble).decode payload = .ok r
  | fecSummary r => (FecSummary.reader r.preamble).decode payload = .ok r
  | spectrum r => (Spectrum.reader r.preamble).decode payload = .ok r
  | modulationProfile r => (ModulationProfiles.reader r.preamble).decode payload = .ok r

theorem decode_map_eq_ok {α : Type} {wrap : α → Capture} {item : Reader α}
    {payload : List UInt8} {c : Capture} :
    (wrap <$> item).decode payload = .ok c ↔ ∃ r, item.decode payload = .ok r ∧ wrap r = c := by
  rw [Reader.decode_map, map_eq_ok]

theorem reads_of_reader {preamble : Preamble} {payload : List UInt8} {c : Capture}
    (h : (reader preamble).decode payload = .ok c) :
    c.preamble = preamble ∧ c.kind ∈ c.kinds ∧ c.Reads payload := by
  unfold reader at h
  cases hkind : preamble.kind with
  | symbolCapture =>
    rw [hkind] at h
    obtain ⟨r, hr, rfl⟩ := decode_map_eq_ok.1 h
    obtain ⟨rfl, -⟩ := SymbolCapture.decode_reader_eq_ok.1 hr
    exact ⟨rfl, by simp [kinds, kind, Capture.preamble, hkind], hr⟩
  | channelEstimate =>
    rw [hkind] at h
    obtain ⟨r, hr, rfl⟩ := decode_map_eq_ok.1 h
    obtain ⟨rfl, -⟩ := ChannelEstimate.decode_reader_eq_ok.1 hr
    exact ⟨rfl, by simp [kinds, kind, Capture.preamble, hkind], hr⟩
  | constellation =>
    rw [hkind] at h
    obtain ⟨r, hr, rfl⟩ := decode_map_eq_ok.1 h
    obtain ⟨rfl, -⟩ := Constellation.decode_reader_eq_ok.1 hr
    exact ⟨rfl, by simp [kinds, kind, Capture.preamble, hkind], hr⟩
  | rxMer =>
    rw [hkind] at h
    obtain ⟨r, hr, rfl⟩ := decode_map_eq_ok.1 h
    obtain ⟨rfl, -⟩ := RxMer.decode_reader_eq_ok.1 hr
    exact ⟨rfl, by simp [kinds, kind, Capture.preamble, hkind], hr⟩
  | histogram =>
    rw [hkind] at h
    obtain ⟨r, hr, rfl⟩ := decode_map_eq_ok.1 h
    obtain ⟨rfl, -⟩ := Histogram.decode_reader_eq_ok.1 hr
    exact ⟨rfl, by simp [kinds, kind, Capture.preamble, hkind], hr⟩
  | preEqualization =>
    rw [hkind] at h
    obtain ⟨r, hr, rfl⟩ := decode_map_eq_ok.1 h
    obtain ⟨rfl, -⟩ := PreEqualization.decode_reader_eq_ok.1 hr
    exact ⟨rfl, by simp [kinds, kind, Capture.preamble, hkind], hr⟩
  | preEqualizationLastUpdate =>
    rw [hkind] at h
    obtain ⟨r, hr, rfl⟩ := decode_map_eq_ok.1 h
    obtain ⟨rfl, -⟩ := PreEqualization.decode_reader_eq_ok.1 hr
    exact ⟨rfl, by simp [kinds, kind, Capture.preamble, hkind], hr⟩
  | fecSummary =>
    rw [hkind] at h
    obtain ⟨r, hr, rfl⟩ := decode_map_eq_ok.1 h
    obtain ⟨rfl, -⟩ := FecSummary.decode_reader_eq_ok.1 hr
    exact ⟨rfl, by simp [kinds, kind, Capture.preamble, hkind], hr⟩
  | spectrum =>
    rw [hkind] at h
    obtain ⟨r, hr, rfl⟩ := decode_map_eq_ok.1 h
    obtain ⟨rfl, -⟩ := Spectrum.decode_reader_eq_ok.1 hr
    exact ⟨rfl, by simp [kinds, kind, Capture.preamble, hkind], hr⟩
  | modulationProfile =>
    rw [hkind] at h
    obtain ⟨r, hr, rfl⟩ := decode_map_eq_ok.1 h
    obtain ⟨rfl, -⟩ := ModulationProfiles.decode_reader_eq_ok.1 hr
    exact ⟨rfl, by simp [kinds, kind, Capture.preamble, hkind], hr⟩
  | latencyReport =>
    rw [hkind] at h
    cases h

theorem reader_of_reads {c : Capture} {payload : List UInt8} (hkind : c.kind ∈ c.kinds)
    (h : c.Reads payload) : (reader c.preamble).decode payload = .ok c := by
  unfold reader
  cases c with
  | symbolCapture r | channelEstimate r | constellation r | rxMer r | histogram r | fecSummary r
  | spectrum r | modulationProfile r =>
    have hkind : r.preamble.kind = _ := List.mem_singleton.1 hkind
    simp only [Capture.preamble, hkind]
    exact decode_map_eq_ok.2 ⟨r, h, rfl⟩
  | preEqualization r =>
    have hkind : r.preamble.kind = .preEqualization ∨
        r.preamble.kind = .preEqualizationLastUpdate := by
      simpa [kinds, kind, Capture.preamble] using hkind
    rcases hkind with hkind | hkind
    all_goals
      simp only [Capture.preamble, hkind]
      exact decode_map_eq_ok.2 ⟨r, h, rfl⟩

/-- What it takes for a header to decode to a capture. -/
theorem decode_eq_ok {h : Header} {c : Capture} :
    decode h = .ok c ↔
      h.kind = .ok c.kind ∧ c.preamble = h.preamble c.kind ∧ c.kind ∈ c.kinds ∧
        c.Reads h.payload := by
  rw [decode_eq_ok_of_kind]
  constructor
  · intro hc
    obtain ⟨kind, hkind, hc⟩ := hc
    obtain ⟨hpreamble, hmem, hreads⟩ := reads_of_reader hc
    have hsame : c.kind = kind := congrArg Preamble.kind hpreamble
    subst hsame
    exact ⟨hkind, hpreamble, hmem, hreads⟩
  · intro hc
    obtain ⟨hkind, hpreamble, hmem, hreads⟩ := hc
    exact ⟨c.kind, hkind, hpreamble ▸ reader_of_reads hmem hreads⟩

end Capture

end CableCapture
