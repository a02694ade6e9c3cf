import CableCapture.Proofs.Capture.Decoding

/-!
# Payloads are neither cut nor padded

Once the kind of a header is known, decoding is one sealed reader of the payload. So no proper
prefix of an accepted payload and no extension of it is accepted under the same header.
-/

namespace CableCapture

namespace Capture

theorem sealed_reader (preamble : Preamble) : (reader preamble).Sealed := by
  unfold reader
  cases preamble.kind with
  | symbolCapture => exact (SymbolCapture.sealed_reader _).map _
  | channelEstimate => exact (ChannelEstimate.sealed_reader _).map _
  | constellation => exact (Constellation.sealed_reader _).map _
  | rxMer => exact (RxMer.sealed_reader _).map _
  | histogram => exact (Histogram.sealed_reader _).map _
  | preEqualization => exact (PreEqualization.sealed_reader _).map _
  | preEqualizationLastUpdate => exact (PreEqualization.sealed_reader _).map _
  | fecSummary => exact (FecSummary.sealed_reader _).map _
  | spectrum => exact (Spectrum.sealed_reader _).map _
  | modulationProfile => exact (ModulationProfiles.sealed_reader _).map _
  | latencyReport => exact .throw _

/-- Decoding never looks at the payload to find out what to read it with. -/
theorem exists_sealed_reader {h : Header} {c : Capture} (hc : decode h = .ok c) :
    ∃ item : Reader Capture, item.Sealed ∧
      ∀ payload, decode { h with payload } = item.decode payload := by
  obtain ⟨hkind, -⟩ := decode_eq_ok.1 hc
  refine ⟨reader (h.preamble c.kind), sealed_reader _, ?_⟩
  intro payload
  exact decode_of_kind hkind

/-- Cut anywhere, an accepted payload is too short for some field. Extended by anything, it has
exactly the extension left over. -/
theorem payload_neither_cut_nor_padded {h : Header} {c : Capture} (hc : decode h = .ok c) :
    (∀ front, front <+: h.payload → front ≠ h.payload →
      ∃ field needed available,
        decode { h with payload := front } =
          .error (.truncatedPayload field needed available)) ∧
    (∀ more, more ≠ [] →
      ∃ context,
        decode { h with payload := h.payload ++ more } =
          .error (.lengthMismatch (.trailing more.length context))) ∧
    ∀ first second a b,
      decode { h with payload := first } = .ok a → decode { h with payload := second } = .ok b →
        first <+: second → first = second := by
  obtain ⟨item, hitem, hdecode⟩ := exists_sealed_reader hc
  have hc := (hdecode h.payload).symm.trans hc
  refine ⟨?_, ?_, ?_⟩
  · intro front hfront hne
    obtain ⟨more, hmore⟩ := hfront
    rw [← hmore] at hc
    rw [hdecode]
    apply hitem.starves hc
    intro hnil
    exact hne (by rw [← hmore, hnil, List.append_nil])
  · intro more hmore
    rw [hdecode]
    exact hitem.trailing hc hmore
  · intro first second a b hfirst hsecond hprefix
    rw [hdecode] at hfirst hsecond
    obtain ⟨more, rfl⟩ := hprefix
    by_cases hmore : more = []
    · rw [hmore, List.append_nil]
    · obtain ⟨context, htrailing⟩ := hitem.trailing hfirst hmore
      rw [htrailing] at hsecond
      cases hsecond

/-- A histogram of one dwell count. -/
def oneDwell : Histogram where
  preamble := { kind := .histogram, major := 1, minor := 0, captureTime := 100 }
  mac := .unset
  symmetry := 1
  dwellCounts := [7]
  hitCounts := []

theorem decode_oneDwell : decode (histogram oneDwell).toHeader = .ok (histogram oneDwell) := by
  have hkind : (histogram oneDwell).toHeader.kind = .ok .histogram := rfl
  have hread : (Histogram.reader oneDwell.preamble).decode oneDwell.toPayload = .ok oneDwell :=
    Histogram.decode_reader_eq_ok.2 ⟨rfl, by decide, by decide, rfl⟩
  rw [decode_of_kind hkind]
  exact (Reader.decode_map _ _ _).trans (congrArg (Except.map histogram) hread)

theorem oneDwell_neither_cut_nor_padded :
    (∃ field needed available,
      decode { (histogram oneDwell).toHeader with payload := oneDwell.toPayload.take 16 } =
        .error (.truncatedPayload field needed available)) ∧
    ∃ context,
      decode { (histogram oneDwell).toHeader with payload := oneDwell.toPayload ++ [0, 0] } =
        .error (.lengthMismatch (.trailing 2 context)) := by
  obtain ⟨hcut, hpadded, -⟩ := payload_neither_cut_nor_padded decode_oneDwell
  exact ⟨hcut _ (List.take_prefix 16 _) (by decide), hpadded [0, 0] (by decide)⟩

end Capture

end CableCapture
