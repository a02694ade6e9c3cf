import CableCapture.Proofs.Capture.Decoding
import CableCapture.Proofs.Envelope
import CableCapture.Proofs.Record.Codes
import CableCapture.Proofs.Store.Runs

/-!
# Envelopes of a channel

A channel has an envelope if its captures agree in length. The levels of a channel have one whose
averages lie between its extremes, to whatever number of decimal places they are rounded.
-/

namespace CableCapture

/-! ## When a channel has an envelope -/

namespace CaptureStore

variable {channel : UInt8} {places : UInt32}

section Series

variable {α : Type} [HasSeries α] {store : CaptureStore α}

/-- The series of a channel's captures. -/
def series (store : CaptureStore α) (channel : UInt8) : List (List Float) :=
  (store.ofChannel channel).map HasSeries.series

theorem envelope_of_mem (h : channel ∈ store.channels) :
    store.envelope channel places = Envelope.compute channel places (store.series channel) := by
  unfold envelope
  rw [require_eq_ok_of_mem h]
  rfl

/-- The length of the earliest capture decides. -/
theorem envelope_cases (h : channel ∈ store.channels) (places : UInt32) :
    ∃ first ∈ store.ofChannel channel,
      (∃ r ∈ store.ofChannel channel,
        (HasSeries.series r).length ≠ (HasSeries.series first).length ∧
          store.envelope channel places = .error (.lengthMismatch (.unequalSeries channel
            (HasSeries.series first).length (HasSeries.series r).length))) ∨
      (∀ r ∈ store.ofChannel channel,
        (HasSeries.series r).length = (HasSeries.series first).length) ∧
        ∃ row, store.envelope channel places = .ok row ∧
          row.Columns channel places (store.series channel) (HasSeries.series first).length := by
  have hne : store.ofChannel channel ≠ [] := fun hnil => ofChannel_eq_nil.1 hnil h
  obtain ⟨first, rest, hcaptures⟩ := List.exists_cons_of_ne_nil hne
  have hhead : ((store.series channel).headD []).length = (HasSeries.series first).length := by
    rw [series, hcaptures]
    rfl
  have hcases := Envelope.compute_cases channel places (store.series channel)
  rw [hhead] at hcases
  refine ⟨first, hcaptures ▸ List.mem_cons_self, ?_⟩
  rw [envelope_of_mem h]
  rcases hcases with ⟨values, hvalues, hlength, herror⟩ | ⟨hlength, hrow⟩
  · obtain ⟨r, hr, rfl⟩ := List.mem_map.1 hvalues
    exact .inl ⟨r, hr, hlength, herror⟩
  · exact .inr ⟨List.forall_mem_map.1 hlength, hrow⟩

/-- An envelope belongs to a channel with captures and counts all of them. -/
theorem of_envelope {row : Envelope} (h : store.envelope channel places = .ok row) :
    row.channel = channel ∧ channel ∈ store.channels ∧
      row.captureCount = (store.ofChannel channel).length := by
  have hchannel : channel ∈ store.channels := by
    by_contra hmissing
    rw [envelope_eq_channelNotFound.2 ⟨rfl, hmissing⟩] at h
    cases h
  obtain ⟨first, -, ⟨r, -, -, herror⟩ | ⟨-, found, hfound, hcolumns⟩⟩ :=
    envelope_cases hchannel places
  · rw [herror] at h
    cases h
  · obtain rfl := Except.ok.inj (hfound.symm.trans h)
    exact ⟨hcolumns.channel, hchannel, hcolumns.captureCount.trans (List.length_map _)⟩

theorem exists_envelope_eq_ok :
    (∃ row, store.envelope channel places = .ok row) ↔
      channel ∈ store.channels ∧ ∀ r ∈ store.ofChannel channel, ∀ s ∈ store.ofChannel channel,
        (HasSeries.series r).length = (HasSeries.series s).length := by
  by_cases hchannel : channel ∈ store.channels
  · obtain ⟨first, hfirst, ⟨r, hr, hne, herror⟩ | ⟨hlength, row, hrow, -⟩⟩ :=
      envelope_cases hchannel places
    · refine iff_of_false ?_ fun h => hne (h.2 r hr first hfirst)
      rintro ⟨row, hrow⟩
      rw [herror] at hrow
      cases hrow
    · exact iff_of_true ⟨row, hrow⟩
        ⟨hchannel, fun r hr s hs => (hlength r hr).trans (hlength s hs).symm⟩
  · refine iff_of_false ?_ fun h => hchannel h.1
    rintro ⟨row, hrow⟩
    exact hchannel (of_envelope hrow).2.1

end Series

end CaptureStore

/-! ## Levels -/

namespace RxMer

open Binary64

/-- Levels are quarters of a dB up to 63.5. -/
theorem quarters_levelOfCode (code : UInt8) : Quarters 254 (levelOfCode code) := by
  have hcode := lowestCode_lt code
  rw [← levelOfCode_lowestCode, levelOfCode_of_lt hcode]
  exact ⟨_, by omega, denotes_quarters (hcode.trans (by norm_num))⟩

theorem quarters_of_decode {h : Header} {r : RxMer} (hr : decode h = .ok r) :
    ∀ x ∈ r.levels, Quarters 254 x := by
  unfold decode at hr
  obtain ⟨preamble, -, hr⟩ := bind_eq_ok.1 hr
  obtain ⟨-, data, -, hlevels, -⟩ := decode_reader_eq_ok.1 hr
  rw [← hlevels]
  exact List.forall_mem_map.2 fun code _ => quarters_levelOfCode code

end RxMer

namespace CaptureStore

/-! ## Main result -/

/-- There are not more captures than times. -/
theorem length_ofChannel_le {α : Type} (store : CaptureStore α) (channel : UInt8) :
    (store.ofChannel channel).length ≤ 2 ^ 32 := by
  have hnodup : (store.times channel).Nodup := (pairwise_times store channel).imp UInt32.ne_of_lt
  have hwords : ((store.times channel).map UInt32.toFin).Nodup :=
    hnodup.map fun a b h => UInt32.toFin_inj.1 h
  have hcount := List.Nodup.length_le_card hwords
  rw [Fintype.card_fin, List.length_map] at hcount
  calc (store.ofChannel channel).length
    _ = (store.times channel).length := by rw [ofChannel, times, List.length_map, List.length_map]
    _ ≤ 2 ^ 32 := hcount

/-- The envelope of a channel's levels fails if captures differ in length, and only for that. Otherwise
it has a row for the whole channel. -/
structure EnvelopeLaw (answer : Except Fault Envelope) (channel : UInt8) (places : UInt32)
    (captures : List RxMer) : Prop where
  fails_iff : (∃ fault, answer = .error fault) ↔
    ∃ r ∈ captures, ∃ s ∈ captures, r.levels.length ≠ s.levels.length
  /-- The fault names both lengths. -/
  fault : ∀ fault, answer = .error fault →
    ∃ r ∈ captures, ∃ s ∈ captures, r.levels.length ≠ s.levels.length ∧
      fault = .lengthMismatch (.unequalSeries channel r.levels.length s.levels.length)
  row : ∀ row, answer = .ok row →
    row.channel = channel ∧ row.captureCount = captures.length ∧ 1 ≤ row.captureCount ∧
      ∃ width, (∀ r ∈ captures, r.levels.length = width) ∧
        row.Summarizes places (captures.map RxMer.levels) width

section Levels

variable {offered : List RxMer} (hdecoded : ∀ r ∈ offered, ∃ h, RxMer.decode h = .ok r)
  {channel : UInt8} {places : UInt32}
include hdecoded

theorem quarters_of_mem_series :
    ∀ values ∈ (run offered).series channel, ∀ x ∈ values, Binary64.Quarters 254 x := by
  refine List.forall_mem_map.2 fun r hr => ?_
  obtain ⟨h, hdecode⟩ := hdecoded r (mem_of_mem_ofChannel hr)
  exact RxMer.quarters_of_decode hdecode

theorem summarizes_of_columns {width : ℕ} {row : Envelope}
    (hwidth : ∀ values ∈ (run offered).series channel, values.length = width)
    (hrow : row.Columns channel places ((run offered).series channel) width)
    (hne : (run offered).series channel ≠ []) :
    row.Summarizes places ((run offered).series channel) width := by
  have hcount : ((run offered).series channel).length ≤ 2 ^ 32 := by
    rw [series, List.length_map]
    exact length_ofChannel_le _ channel
  exact hrow.summarizes (fun i hi => Envelope.length_column hi hwidth) fun i hi =>
    Envelope.averageable_column hne hwidth (quarters_of_mem_series hdecoded) (by omega) (by omega) hi

end Levels

/-- Whatever decoded levels a store was offered, the rows of its channels have averages between their
extremes, and nothing but captures of different lengths keeps a channel from having one. -/
theorem envelope_of_decoded_levels {offered : List RxMer}
    (hdecoded : ∀ r ∈ offered, ∃ h, RxMer.decode h = .ok r) :
    ∀ channel ∈ (run offered).channels, ∀ places,
      EnvelopeLaw ((run offered).envelope channel places) channel places
        ((run offered).ofChannel channel) := by
  intro channel hchannel places
  obtain ⟨first, hfirst, ⟨r, hr, hne, herror⟩ | ⟨hwidth, row, hrow, hcolumns⟩⟩ :=
    envelope_cases hchannel places
  · rw [herror]
    exact {
      fails_iff := iff_of_true ⟨_, rfl⟩ ⟨first, hfirst, r, hr, hne.symm⟩
      fault := fun fault hfault =>
        ⟨first, hfirst, r, hr, hne.symm, (Except.error.inj hfault).symm⟩
      row := fun row hrow => nomatch hrow }
  · rw [hrow]
    exact {
      fails_iff := by
        refine iff_of_false (fun ⟨_, hfault⟩ => nomatch hfault) ?_
        rintro ⟨r, hr, s, hs, hne⟩
        exact hne ((hwidth r hr).trans (hwidth s hs).symm)
      fault := fun fault hfault => nomatch hfault
      row := by
        rintro _ ⟨⟩
        have hcount : row.captureCount = ((run offered).ofChannel channel).length :=
          hcolumns.captureCount.trans (List.length_map _)
        refine ⟨hcolumns.channel, hcount, ?_, first.levels.length, hwidth, ?_⟩
        · rw [hcount]
          exact List.length_pos_of_mem hfirst
        · exact summarizes_of_columns hdecoded (List.forall_mem_map.2 hwidth) hcolumns
            (List.ne_nil_of_mem (List.mem_map_of_mem hfirst)) }

/-- A header of levels for channel 3. -/
def levelHeader (time : UInt32) (codes : List UInt8) : Header where
  tag := "PNN"
  version := 4
  major := 0
  minor := 0
  captureTime := time
  layout := .standard
  payload := [3, 2, 0, 0, 0, 0, 1, 0, 0, 0, 5, 0, 6, 50] ++ declaredBytes codes

def decodedLevels (headers : List Header) : List RxMer :=
  headers.filterMap fun h => (RxMer.decode h).toOption

theorem decoded_decodedLevels (headers : List Header) :
    ∀ r ∈ decodedLevels headers, ∃ h, RxMer.decode h = .ok r := by
  intro r hr
  obtain ⟨h, -, hr⟩ := List.mem_filterMap.1 hr
  exact ⟨h, toOption_eq_some.1 hr⟩

/-- Two captures of two levels have an envelope. A third one with a single level takes it away. -/
theorem envelope_of_two_levels :
    let pair := [levelHeader 1 [160, 161], levelHeader 2 [100, 255]]
    let trio := pair ++ [levelHeader 3 [100]]
    (∃ row, (run (decodedLevels pair)).envelope 3 1 = .ok row ∧ row.captureCount = 2 ∧
      ∃ low middle high, row.least.values[1]? = some low ∧ row.average.values[1]? = some middle ∧
        row.greatest.values[1]? = some high ∧ low ≤ middle ∧ middle ≤ high) ∧
      ∃ cause, (run (decodedLevels trio)).envelope 3 1 = .error (.lengthMismatch cause) := by
  intro pair trio
  constructor
  · have hchannel : 3 ∈ (run (decodedLevels pair)).channels := by decide +kernel
    have hlengths : ((run (decodedLevels pair)).ofChannel 3).map (·.levels.length) = [2, 2] := by
      decide +kernel
    have hlaw := envelope_of_decoded_levels (decoded_decodedLevels pair) 3 hchannel 1
    have hlength : ∀ r ∈ (run (decodedLevels pair)).ofChannel 3, r.levels.length = 2 := by
      intro r hr
      simpa [hlengths] using List.mem_map_of_mem (f := (·.levels.length)) hr
    cases hanswer : (run (decodedLevels pair)).envelope 3 1 with
    | error fault =>
      obtain ⟨r, hr, s, hs, hne⟩ := hlaw.fails_iff.1 ⟨fault, hanswer⟩
      exact absurd ((hlength r hr).trans (hlength s hs).symm) hne
    | ok row =>
      obtain ⟨-, hcount, hpos, width, hwidth, hrow⟩ := hlaw.row row hanswer
      obtain ⟨r, hr⟩ := List.exists_mem_of_length_pos (hcount ▸ hpos)
      have hone : 1 < width := by
        rw [← hwidth r hr, hlength r hr]
        exact one_lt_two
      obtain ⟨_, -, hlow, -⟩ := hrow.least 1 hone
      obtain ⟨_, -, hmiddle, -⟩ := hrow.average 1 hone
      obtain ⟨_, -, hhigh, -⟩ := hrow.greatest 1 hone
      have htwo : ((run (decodedLevels pair)).ofChannel 3).length = 2 := by
        rw [← List.length_map (f := (·.levels.length)), hlengths]
        rfl
      exact ⟨row, rfl, hcount.trans htwo, _, _, _, hlow, hmiddle, hhigh,
        hrow.ordered 1 _ _ _ hlow hmiddle hhigh⟩
  · have hchannel : 3 ∈ (run (decodedLevels trio)).channels := by decide +kernel
    have hlaw := envelope_of_decoded_levels (decoded_decodedLevels trio) 3 hchannel 1
    have hunequal : ∃ r ∈ (run (decodedLevels trio)).ofChannel 3,
        ∃ s ∈ (run (decodedLevels trio)).ofChannel 3, r.levels.length ≠ s.levels.length := by
      decide +kernel
    obtain ⟨fault, hfault⟩ := hlaw.fails_iff.2 hunequal
    obtain ⟨r, -, s, -, -, rfl⟩ := hlaw.fault fault hfault
    exact ⟨_, hfault⟩

end CaptureStore

end CableCapture
