import CableCapture.Proofs.Report.Aggregation
import CableCapture.Proofs.Report.Rows

/-!
# What a report accounts for

A report counts the files that are identified, lists each of their channels once, and has a row of
results for every channel whose records have a result. A file that does not decode is still counted
and listed, and captures of one time count as one in a row of levels.
-/

namespace CableCapture

open CaptureStore (Survives latest)

/-! ## Records of a channel -/

/-- The records of one channel of one device in their order. -/
def Fleet.recordsOf {α : Type} [CaptureRecord α] (records : List α) (mac : MacAddress)
    (channel : UInt8) : List α :=
  (records.filter fun r => CaptureRecord.mac r = mac).filter fun r =>
    CaptureRecord.channel r = channel

/-- Where records carry the identities of their entries, the records of a channel are those of its
entries. -/
theorem CaptureIndex.WellFormed.recordsOf_filterMap {α : Type} [CaptureRecord α]
    {index : CaptureIndex} (h : index.WellFormed) {kind : CaptureKind}
    {pick : IndexEntry → Option α}
    (hpick : ∀ e ∈ index.toList, ∀ r, pick e = some r → identityOf kind r = e.identity)
    (mac : MacAddress) (channel : UInt8) :
    Fleet.recordsOf (index.toList.filterMap pick) mac channel =
      (index.entries mac channel).filterMap pick := by
  unfold Fleet.recordsOf
  rw [List.filter_filter, ← h.filter_toList]
  apply filter_filterMap_of_mem
  intro e he r hr
  have hmac : CaptureRecord.mac r = e.mac := congrArg Identity.mac (hpick e he r hr)
  have hchannel : CaptureRecord.channel r = e.channel :=
    congrArg Identity.channel (hpick e he r hr)
  simp [hmac, hchannel, Bool.and_comm]

theorem filterMap_ne_nil {α β : Type} {f : α → Option β} {l : List α} :
    l.filterMap f ≠ [] ↔ ∃ a ∈ l, ∃ b, f a = some b := by
  simp [List.filterMap_eq_nil_iff, Option.ne_none_iff_exists']

namespace Fleet

section OfRecords

variable {α : Type} [CaptureRecord α] {records : List α} {mac : MacAddress} {channel : UInt8}

theorem captures_of_ofRecords {store : CaptureStore α} (h : (ofRecords records)[mac]? = some store) :
    store.captures = latest (records.filter fun r => CaptureRecord.mac r = mac) := by
  rw [getElem?_ofRecords] at h
  cases hfound : records.filter fun r => CaptureRecord.mac r = mac with
  | nil =>
    rw [hfound] at h
    cases h
  | cons r rest =>
    rw [hfound] at h
    rw [← Option.some.inj h]

theorem mem_channels_of_ofRecords {store : CaptureStore α}
    (h : (ofRecords records)[mac]? = some store) :
    channel ∈ store.channels ↔ recordsOf records mac channel ≠ [] := by
  rw [CaptureStore.mem_channels_of_latest (captures_of_ofRecords h), recordsOf, ne_eq,
    List.filter_eq_nil_iff]
  simp only [decide_eq_true_eq, not_forall, not_not, exists_prop]

theorem mem_ofChannel_of_ofRecords {store : CaptureStore α}
    (h : (ofRecords records)[mac]? = some store) {r : α} :
    r ∈ store.ofChannel channel ↔ Survives (recordsOf records mac channel) r :=
  CaptureStore.mem_ofChannel_of_latest (captures_of_ofRecords h)

theorem exists_store (h : recordsOf records mac channel ≠ []) :
    ∃ store, (ofRecords records)[mac]? = some store := by
  obtain ⟨r, hr⟩ := List.exists_mem_of_ne_nil _ h
  have hmac := List.mem_filter.1 (List.mem_filter.1 hr).1
  have hmem : mac ∈ ofRecords records := mem_ofRecords.2 ⟨r, hmac.1, of_decide_eq_true hmac.2⟩
  exact ⟨_, Std.ExtTreeMap.getElem?_eq_some_getElem hmem⟩

end OfRecords

section Results

variable {mac : MacAddress} {channel : UInt8}

theorem exists_envelope?_ofRecords (places : UInt32) {records : List RxMer} :
    (∃ row, (ofRecords records).envelope? mac channel places = some row) ↔
      recordsOf records mac channel ≠ [] ∧
        ∀ r, Survives (recordsOf records mac channel) r →
          ∀ s, Survives (recordsOf records mac channel) s → r.levels.length = s.levels.length := by
  unfold envelope?
  simp only [Option.bind_eq_some_iff, toOption_eq_some]
  constructor
  · rintro ⟨row, store, hstore, hrow⟩
    obtain ⟨hchannel, hlength⟩ := CaptureStore.exists_envelope_eq_ok.1 ⟨row, hrow⟩
    simp only [mem_ofChannel_of_ofRecords hstore] at hlength
    exact ⟨(mem_channels_of_ofRecords hstore).1 hchannel, hlength⟩
  · rintro ⟨hne, hlength⟩
    obtain ⟨store, hstore⟩ := exists_store hne
    simp only [← mem_ofChannel_of_ofRecords hstore] at hlength
    obtain ⟨row, hrow⟩ := CaptureStore.exists_envelope_eq_ok.2
      ⟨(mem_channels_of_ofRecords hstore).2 hne, hlength⟩
    exact ⟨row, store, hstore, hrow⟩

theorem captureCount_of_envelope? {records : List RxMer} {places : UInt32} {row : Envelope}
    (h : (ofRecords records).envelope? mac channel places = some row) :
    row.captureCount =
      ((recordsOf records mac channel).map CaptureRecord.time).dedup.length := by
  obtain ⟨store, hstore, hrow⟩ := Option.bind_eq_some_iff.1 h
  rw [(CaptureStore.of_envelope (toOption_eq_some.1 hrow)).2.2,
    CaptureStore.length_ofChannel_of_latest (captures_of_ofRecords hstore)]
  rfl

theorem exists_totals?_ofRecords {records : List FecSummary} :
    (∃ totals, (ofRecords records).totals? mac channel = some totals) ↔
      recordsOf records mac channel ≠ [] := by
  unfold totals?
  simp only [Option.bind_eq_some_iff, toOption_eq_some]
  constructor
  · rintro ⟨totals, store, hstore, htotals⟩
    rw [← mem_channels_of_ofRecords hstore]
    exact CaptureStore.exists_totals_eq_ok.1 ⟨totals, htotals⟩
  · intro hne
    obtain ⟨store, hstore⟩ := exists_store hne
    obtain ⟨totals, htotals⟩ :=
      CaptureStore.exists_totals_eq_ok.2 ((mem_channels_of_ofRecords hstore).2 hne)
    exact ⟨totals, store, hstore, htotals⟩

end Results

end Fleet

/-! ## Main result -/

namespace Report

/-- How the rows of levels, with their devices, answer to an index. -/
structure LevelRows (index : CaptureIndex) (rows : List (MacAddress × Envelope)) : Prop where
  ordered : (rows.map fun row => (row.1, row.2.channel)).Pairwise Fleet.Before
  /-- A channel has a row if something decodes and the survivors agree in length. -/
  row_iff : ∀ mac channel, (∃ row, (mac, row) ∈ rows ∧ row.channel = channel) ↔
    (∃ e ∈ index.entries mac channel, ∃ r, e.rxMer? = some r) ∧
      ∀ r, Survives ((index.entries mac channel).filterMap IndexEntry.rxMer?) r →
        ∀ s, Survives ((index.entries mac channel).filterMap IndexEntry.rxMer?) s →
          r.levels.length = s.levels.length
  /-- A row counts times. -/
  count : ∀ mac row, (mac, row) ∈ rows → row.captureCount =
    (((index.entries mac row.channel).filterMap IndexEntry.rxMer?).map
      CaptureRecord.time).dedup.length

/-- How the rows of counters answer to an index. -/
structure CounterRows (index : CaptureIndex) (rows : List FecRow) : Prop where
  ordered : (rows.map fun row => (row.mac, row.channel)).Pairwise Fleet.Before
  /-- A channel has a row if something decodes. -/
  row_iff : ∀ mac channel, (∃ row ∈ rows, row.mac = mac ∧ row.channel = channel) ↔
    ∃ e ∈ index.entries mac channel, ∃ r, e.fec? = some r

section Rows

variable {index : CaptureIndex} (h : index.WellFormed) (hfiled : ∀ e ∈ index.toList, e.Filed)
include h hfiled

theorem levelRows_of_filed (places : UInt32) :
    LevelRows index (attributed (Fleets.ofIndex index).rxMer places) where
  ordered := pairwise_attributed _ places
  row_iff mac channel := by
    rw [← filterMap_ne_nil, ← h.recordsOf_filterMap fun e he r => (hfiled e he).rxMer,
      ← Fleet.exists_envelope?_ofRecords places, Fleets.ofIndex_of_filed hfiled]
    simp only [mem_attributed]
  count mac row hrow := by
    have hresult := mem_attributed.1 ⟨hrow, rfl⟩
    rw [Fleets.ofIndex_of_filed hfiled] at hresult
    rw [← h.recordsOf_filterMap fun e he r => (hfiled e he).rxMer]
    exact Fleet.captureCount_of_envelope? hresult

theorem counterRows_of_filed : CounterRows index (fecRows (Fleets.ofIndex index).fec) where
  ordered := pairwise_fecRows
  row_iff mac channel := by
    rw [← filterMap_ne_nil, ← h.recordsOf_filterMap fun e he r => (hfiled e he).fec,
      ← Fleet.exists_totals?_ofRecords, Fleets.ofIndex_of_filed hfiled]
    constructor
    · rintro ⟨row, hrow, rfl, rfl⟩
      exact ⟨row.totals, mem_fecRows.1 hrow⟩
    · rintro ⟨totals, htotals⟩
      exact ⟨⟨mac, channel, totals⟩, mem_fecRows.2 htotals, rfl, rfl⟩

end Rows

end Report

/-- Whatever the files and the stages, a report counts the files that are identified, each in the one
row of its channel, and has exactly the rows of results that the records of the channels give, in the
order of devices and channels. No step of a section asks for a channel without captures. -/
theorem report_accounts_for_every_file [Calendar] (files : List (String × List UInt8))
    (stages : List CaptureIndex.Stage) (places : UInt32) :
    let index := (CaptureIndex.ofFiles files).applyStages stages
    let fleets := Fleets.ofIndex index
    let report := Report.ofIndex index places
    (report.captureCount = files.countP fun (name, bytes) => (IndexEntry.ofFile name bytes).isOk) ∧
      report.captureCount = (report.channels.map fun row => row.captureCount).sum ∧
      (report.channels.map fun row => (row.mac, row.channel)).Nodup ∧
      report.rxMer = (Report.attributed fleets.rxMer places).map Prod.snd ∧
      Report.LevelRows index (Report.attributed fleets.rxMer places) ∧
      Report.CounterRows index report.fec ∧
      (∀ mac store channel, (mac, store, channel) ∈ fleets.rxMer.channels →
        ∀ other, store.envelope channel places ≠ .error (.channelNotFound other)) ∧
      ∀ mac store channel, (mac, store, channel) ∈ fleets.fec.channels →
        ∀ other, store.totals channel ≠ .error (.channelNotFound other) := by
  intro index fleets report
  have hwf : index.WellFormed := (CaptureIndex.WellFormed.ofFiles files).applyStages stages
  have hfiled : ∀ e ∈ index.toList, e.Filed := fun e => CaptureIndex.filed_of_mem_applyStages
  have hsize : index.size = (CaptureIndex.ofFiles files).size :=
    (CaptureIndex.toList_applyStages_perm stages).length_eq
  refine ⟨hsize.trans (CaptureIndex.size_ofFiles files),
    CaptureIndex.sum_captureCount_summary.symm, hwf.nodup_summary,
    Report.envelopes_eq_map_attributed _ places, Report.levelRows_of_filed hwf hfiled places,
    Report.counterRows_of_filed hwf hfiled, ?_, ?_⟩
  · intro mac store channel hmem other hfault
    obtain ⟨-, hmissing⟩ := CaptureStore.envelope_eq_channelNotFound.1 hfault
    exact hmissing (Fleet.mem_channels.1 hmem).2
  · intro mac store channel hmem other hfault
    obtain ⟨-, hmissing⟩ := CaptureStore.totals_eq_error.1 hfault
    exact hmissing (Fleet.mem_channels.1 hmem).2

end CableCapture
