import CableCapture.Proofs.Report.Accounting
import CableCapture.Session

/-!
# Whose results a report tells

A row of counters names its device. A row of levels names its channel only and stands behind the rows
of lower addresses, so that its owner is known from the rest of the report if no device that lists
levels on the channel is without a row. Otherwise the rows of two runs may be equal and belong to
different devices.
-/

namespace CableCapture

attribute [ext] Report

namespace Report

/-- The rows of levels for one channel. -/
def levelsOf (report : Report) (channel : UInt8) : List Envelope :=
  report.rxMer.filter fun row => row.channel = channel

/-- The devices that list levels on a channel. -/
def candidates (report : Report) (channel : UInt8) : List MacAddress :=
  (report.channels.filter fun row => row.channel = channel ∧ .rxMer ∈ row.kinds).map
    CaptureIndex.SummaryRow.mac

/-- None of the devices that list levels on a channel has a row, or all of them have one. -/
def Settles (report : Report) (channel : UInt8) : Prop :=
  report.levelsOf channel = [] ∨
    (report.levelsOf channel).length = (report.candidates channel).length

/-! ## Owners -/

/-- The rows of levels for one channel with their devices. -/
def attributedOf (fleet : Fleet RxMer) (places : UInt32) (channel : UInt8) :
    List (MacAddress × Envelope) :=
  (attributed fleet places).filter fun row => row.2.channel = channel

/-- The devices with a row of levels for a channel. -/
def owners (fleet : Fleet RxMer) (places : UInt32) (channel : UInt8) : List MacAddress :=
  (attributedOf fleet places channel).map Prod.fst

section Owners

variable {fleet : Fleet RxMer} {places : UInt32} {mac : MacAddress} {channel : UInt8}

theorem mem_attributedOf {row : Envelope} :
    (mac, row) ∈ attributedOf fleet places channel ↔
      fleet.envelope? mac channel places = some row := by
  unfold attributedOf
  rw [List.mem_filter, decide_eq_true_eq, mem_attributed]

theorem mem_owners :
    mac ∈ owners fleet places channel ↔ (fleet.envelope? mac channel places).isSome := by
  unfold owners
  rw [List.mem_map, Option.isSome_iff_exists, Prod.exists]
  simp only [mem_attributedOf]
  constructor
  · rintro ⟨m, row, hrow, rfl⟩
    exact ⟨row, hrow⟩
  · rintro ⟨row, hrow⟩
    exact ⟨mac, row, hrow, rfl⟩

theorem pairwise_owners (fleet : Fleet RxMer) (places : UInt32) (channel : UInt8) :
    (owners fleet places channel).Pairwise fun a b => a.octets < b.octets := by
  unfold owners attributedOf
  rw [List.pairwise_map]
  have hordered := List.pairwise_map.1 (pairwise_attributed fleet places)
  refine (hordered.filter _).imp_of_mem fun {a b} ha hb hbefore => ?_
  have hsame := of_decide_eq_true (List.mem_filter.1 ha).2
  have hother := of_decide_eq_true (List.mem_filter.1 hb).2
  rcases hbefore with hlt | ⟨-, hlt⟩
  · exact hlt
  · rw [hsame, hother] at hlt
    exact absurd hlt (UInt8.lt_irrefl channel)

theorem nodup_owners : (owners fleet places channel).Nodup := by
  refine (pairwise_owners fleet places channel).imp ?_
  rintro a _ hlt rfl
  exact List.lt_irrefl _ hlt

end Owners

theorem filter_envelopes (fleet : Fleet RxMer) (places : UInt32) (channel : UInt8) :
    (envelopes fleet places).filter (fun row => row.channel = channel) =
      (attributedOf fleet places channel).map Prod.snd := by
  rw [envelopes_eq_map_attributed, List.filter_map]
  rfl

/-- Equal rows belong to the same devices if the devices with a row are the same. -/
theorem attributedOf_eq_of_owners {fleet other : Fleet RxMer} {places : UInt32} {channel : UInt8}
    (hrows : envelopes fleet places = envelopes other places)
    (howners : ∀ mac, mac ∈ owners fleet places channel ↔ mac ∈ owners other places channel) :
    attributedOf fleet places channel = attributedOf other places channel := by
  have hmacs : owners fleet places channel = owners other places channel := by
    refine List.Perm.eq_of_pairwise ?_ (pairwise_owners ..) (pairwise_owners ..)
      ((List.perm_ext_iff_of_nodup nodup_owners nodup_owners).2 howners)
    intro a b _ _ hlt hgt
    exact absurd hlt (List.lt_asymm hgt)
  have hlevels : (attributedOf fleet places channel).map Prod.snd =
      (attributedOf other places channel).map Prod.snd := by
    rw [← filter_envelopes, ← filter_envelopes, hrows]
  calc attributedOf fleet places channel
    _ = (owners other places channel).zip ((attributedOf other places channel).map Prod.snd) :=
      List.zip_of_prod hmacs hlevels
    _ = attributedOf other places channel := (List.zip_of_prod rfl rfl).symm

theorem envelope?_eq_of_owners {fleet other : Fleet RxMer} {places : UInt32} {channel : UInt8}
    (hrows : envelopes fleet places = envelopes other places)
    (howners : ∀ mac, mac ∈ owners fleet places channel ↔ mac ∈ owners other places channel)
    (mac : MacAddress) :
    fleet.envelope? mac channel places = other.envelope? mac channel places := by
  apply Option.ext
  intro row
  rw [← mem_attributedOf, ← mem_attributedOf, attributedOf_eq_of_owners hrows howners]

theorem totals?_eq_of_fecRows {fleet other : Fleet FecSummary} (hrows : fecRows fleet = fecRows other)
    (mac : MacAddress) (channel : UInt8) : fleet.totals? mac channel = other.totals? mac channel := by
  apply Option.ext
  intro totals
  rw [← mem_fecRows, ← mem_fecRows, hrows]

/-! ## Reports of indexes -/

section Indexes

variable [Calendar] {index : CaptureIndex} (h : index.WellFormed)
  (hfiled : ∀ e ∈ index.toList, e.Filed)
include h hfiled

/-- A device with a row of levels lists levels. -/
theorem owners_subset_candidates (places : UInt32) (channel : UInt8) :
    owners (Fleets.ofIndex index).rxMer places channel ⊆
      (ofIndex index places).candidates channel := by
  intro mac hmac
  obtain ⟨row, hrow⟩ := Option.isSome_iff_exists.1 (mem_owners.1 hmac)
  obtain ⟨⟨e, he, r, hr⟩, -⟩ :=
    ((levelRows_of_filed h hfiled places).row_iff mac channel).1 ⟨row, mem_attributed.2 hrow⟩
  have hmem : e ∈ index.toList := by
    rw [← h.filter_toList] at he
    exact (List.mem_filter.1 he).1
  have hkind : e.kind = .rxMer := (congrArg Identity.kind ((hfiled e hmem).rxMer hr)).symm
  obtain ⟨summary, hsummary, rfl, rfl, hlists⟩ := CaptureIndex.exists_row_of_mem_entries he
  rw [hkind] at hlists
  exact List.mem_map.2 ⟨summary, List.mem_filter.2 ⟨hsummary, by simp [hlists]⟩, rfl⟩

/-- Where a report settles a channel, it names the owners of the rows. -/
theorem mem_owners_of_settles {places : UInt32} {channel : UInt8}
    (hsettles : (ofIndex index places).Settles channel) {mac : MacAddress} :
    mac ∈ owners (Fleets.ofIndex index).rxMer places channel ↔
      (ofIndex index places).levelsOf channel ≠ [] ∧
        mac ∈ (ofIndex index places).candidates channel := by
  have hlevels : (ofIndex index places).levelsOf channel =
      (attributedOf (Fleets.ofIndex index).rxMer places channel).map Prod.snd :=
    filter_envelopes ..
  rcases hsettles with hnone | hall
  · have hempty : owners (Fleets.ofIndex index).rxMer places channel = [] := by
      rw [hnone] at hlevels
      rw [owners, List.map_eq_nil_iff.1 hlevels.symm, List.map_nil]
    simp [hempty, hnone]
  · have hperm : (owners (Fleets.ofIndex index).rxMer places channel).Perm
        ((ofIndex index places).candidates channel) := by
      have hsub := List.subperm_of_subset nodup_owners
        (owners_subset_candidates h hfiled places channel)
      refine hsub.perm_of_length_le ?_
      rw [← hall, hlevels, owners, List.length_map, List.length_map]
    rw [hperm.mem_iff, iff_and_self]
    intro hmac hnone
    rw [hnone] at hall
    exact List.ne_nil_of_mem hmac (List.length_eq_zero_iff.1 hall.symm)

end Indexes

end Report

/-! ## Main result -/

/-- Equal reports tell the same counters of every device and channel. They tell the same levels of a
channel if the devices that have levels there are the same, and the report itself makes sure of that
if none or all of the devices that list levels on the channel have a row. -/
theorem Settings.results_of_equal_reports [Calendar] (settings : Settings)
    {files others : List (String × List UInt8)}
    (h : settings.report files = settings.report others) :
    let fleets := Fleets.ofIndex (settings.index files)
    let otherFleets := Fleets.ofIndex (settings.index others)
    (∀ mac channel, fleets.fec.totals? mac channel = otherFleets.fec.totals? mac channel) ∧
      (∀ channel,
        (∀ mac, (fleets.rxMer.envelope? mac channel settings.places).isSome =
          (otherFleets.rxMer.envelope? mac channel settings.places).isSome) →
        ∀ mac, fleets.rxMer.envelope? mac channel settings.places =
          otherFleets.rxMer.envelope? mac channel settings.places) ∧
      ∀ channel, (settings.report files).Settles channel →
        ∀ mac, fleets.rxMer.envelope? mac channel settings.places =
          otherFleets.rxMer.envelope? mac channel settings.places := by
  intro fleets otherFleets
  have hwf : ∀ files, (settings.index files).WellFormed := fun files =>
    (CaptureIndex.WellFormed.ofFiles files).applyStages settings.stages
  have hfiled : ∀ files, ∀ e ∈ (settings.index files).toList, e.Filed := fun files e =>
    CaptureIndex.filed_of_mem_applyStages
  have hrows : Report.envelopes fleets.rxMer settings.places =
      Report.envelopes otherFleets.rxMer settings.places := congrArg Report.rxMer h
  have hfec : Report.fecRows fleets.fec = Report.fecRows otherFleets.fec := congrArg Report.fec h
  refine ⟨Report.totals?_eq_of_fecRows hfec, ?_, ?_⟩
  · intro channel hsame
    refine Report.envelope?_eq_of_owners hrows fun mac => ?_
    rw [Report.mem_owners, Report.mem_owners, hsame mac]
  · intro channel hsettles
    refine Report.envelope?_eq_of_owners hrows fun mac => ?_
    have hreport : Report.ofIndex (settings.index files) settings.places =
        Report.ofIndex (settings.index others) settings.places := h
    have hother : (Report.ofIndex (settings.index others) settings.places).Settles channel :=
      hreport ▸ hsettles
    rw [Report.mem_owners_of_settles (hwf files) (hfiled files) hsettles,
      Report.mem_owners_of_settles (hwf others) (hfiled others) hother,
      hreport]

/-- A file with a level on channel 3 of the device with this last octet, measured at 1700000000. It
announces one level and is cut if there is none. -/
def levelFile (octet : UInt8) (levels : List UInt8) : List UInt8 :=
  [0x50, 0x4E, 0x4E, 4, 1, 0, 0x65, 0x53, 0xF1, 0, 3, 2, 0, 0, 0, 0, octet,
    0x05, 0xF5, 0xE1, 0, 0, 0, 50, 0, 0, 0, 1] ++ levels

def levelDevice (octet : UInt8) : MacAddress :=
  (MacAddress.ofOctets? [2, 0, 0, 0, 0, octet]).getD .unset

def plainSettings : Settings where
  captureFolder := "captures"
  logLevel := "info"
  places := 2
  stages := []
  output := none

/-- The level of a device, after one that it replaces. -/
def replacingFiles (replaced : UInt8) : List (String × List UInt8) :=
  [("early.bin", levelFile 1 [replaced]), ("late.bin", levelFile 1 [160])]

theorem Report.ext_of_no_counters {report other : Report}
    (hfec : report.fec = [] ∧ other.fec = [])
    (hrest : report.captureCount = other.captureCount ∧ report.channels = other.channels ∧
      report.rxMer = other.rxMer) : report = other :=
  Report.ext hrest.1 hrest.2.1 hrest.2.2 (hfec.1.trans hfec.2.symm)

/-- A channel with one device is settled, so equal reports tell whose its row is. -/
theorem replaced_level_not_told :
    plainSettings.report (replacingFiles 150) = plainSettings.report (replacingFiles 170) ∧
      (plainSettings.report (replacingFiles 150)).levelsOf 3 ≠ [] ∧
      ∀ mac, (Fleets.ofIndex (plainSettings.index (replacingFiles 150))).rxMer.envelope? mac 3 2 =
        (Fleets.ofIndex (plainSettings.index (replacingFiles 170))).rxMer.envelope? mac 3 2 := by
  have hreport : plainSettings.report (replacingFiles 150) =
      plainSettings.report (replacingFiles 170) :=
    Report.ext_of_no_counters (by decide +kernel) (by decide +kernel)
  have hsettles : (plainSettings.report (replacingFiles 150)).Settles 3 := .inr (by decide +kernel)
  obtain ⟨-, -, hlevels⟩ := plainSettings.results_of_equal_reports hreport
  exact ⟨hreport, by decide +kernel, hlevels 3 hsettles⟩

/-- The files of two devices on one channel. -/
def neighbourFiles (levels others : List UInt8) : List (String × List UInt8) :=
  [("one.bin", levelFile 1 levels), ("two.bin", levelFile 2 others)]

/-- If one of the two files is cut, the report does not tell which. -/
theorem owner_not_told :
    plainSettings.report (neighbourFiles [160] []) =
        plainSettings.report (neighbourFiles [] [160]) ∧
      (Fleets.ofIndex (plainSettings.index (neighbourFiles [160] []))).rxMer.envelope?
          (levelDevice 1) 3 2 ≠
        (Fleets.ofIndex (plainSettings.index (neighbourFiles [] [160]))).rxMer.envelope?
          (levelDevice 1) 3 2 :=
  ⟨Report.ext_of_no_counters (by decide +kernel) (by decide +kernel), by decide +kernel⟩

end CableCapture
