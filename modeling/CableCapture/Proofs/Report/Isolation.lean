import CableCapture.Libraries
import CableCapture.Proofs.Index.Channels
import CableCapture.Proofs.Index.Devices
import CableCapture.Proofs.Report.Aggregation

/-!
# Devices do not interfere

What a run tells of a device follows from the files of that device in their order: its channels and
entries, its rows of the summary, and the stores in which its captures end up. Files of other devices
and files that are not identified may come, go and move without a trace.
-/

namespace CableCapture

/-! ## Stores of a device -/

/-- The store of a device holds the records that its part of the index decodes to. -/
theorem Fleet.getElem?_ofRecords_filterMap {α : Type} [CaptureRecord α] {index : CaptureIndex}
    (h : index.WellFormed) {kind : CaptureKind} {pick : IndexEntry → Option α}
    (hpick : ∀ e ∈ index.toList, ∀ r, pick e = some r → identityOf kind r = e.identity)
    (mac : MacAddress) :
    (ofRecords (index.toList.filterMap pick))[mac]? =
      storeOf mac ((index.part mac).toList.filterMap pick) := by
  rw [getElem?_ofRecords, h.toList_part]
  congr 1
  apply filter_filterMap_of_mem
  intro e he r hr
  have hmac : CaptureRecord.mac r = e.mac := congrArg Identity.mac (hpick e he r hr)
  rw [hmac]

namespace Fleets

variable {index other : CaptureIndex} {mac : MacAddress}

/-- Indexes that agree on a device fill the same stores for it. -/
theorem getElem?_ofIndex_of_part (h : index.WellFormed) (hother : other.WellFormed)
    (hfiled : ∀ e ∈ index.toList, e.Filed) (hotherFiled : ∀ e ∈ other.toList, e.Filed)
    (hpart : index.part mac = other.part mac) :
    (ofIndex index).rxMer[mac]? = (ofIndex other).rxMer[mac]? ∧
      (ofIndex index).fec[mac]? = (ofIndex other).fec[mac]? := by
  rw [ofIndex_of_filed hfiled, ofIndex_of_filed hotherFiled]
  constructor
  · rw [Fleet.getElem?_ofRecords_filterMap h fun e he r => (hfiled e he).rxMer,
      Fleet.getElem?_ofRecords_filterMap hother fun e he r => (hotherFiled e he).rxMer, hpart]
  · rw [Fleet.getElem?_ofRecords_filterMap h fun e he r => (hfiled e he).fec,
      Fleet.getElem?_ofRecords_filterMap hother fun e he r => (hotherFiled e he).fec, hpart]

/-- Stages leave every store as it is. -/
theorem ofIndex_applyStages (files : List (String × List UInt8))
    (stages : List CaptureIndex.Stage) :
    ofIndex ((CaptureIndex.ofFiles files).applyStages stages) =
      ofIndex (CaptureIndex.ofFiles files) :=
  ofIndex_eq_of_rivals (fun _ => CaptureIndex.filed_of_mem_applyStages)
    (fun _ => CaptureIndex.filed_of_mem_ofFiles)
    fun _ => (CaptureIndex.WellFormed.ofFiles files).rivals_applyStages stages

end Fleets

/-! ## Main result -/

open CaptureIndex (filesOf)

/-- Two batches with the same files of a device in the same order tell the same of it, whatever else
they hold and whatever the stages: its channels in their order, its rows of the summary, its stores
and all that comes out of them. Under the same stages the entries of its channels are the same, too.
Its part of either index is the index of its own files. -/
theorem device_follows_from_own_files [Calendar] {mac : MacAddress}
    {files others : List (String × List UInt8)} (h : filesOf mac files = filesOf mac others) (stages otherStages : List CaptureIndex.Stage) :
    let index := (CaptureIndex.ofFiles files).applyStages stages
    let other := (CaptureIndex.ofFiles others).applyStages otherStages
    let fleets := Fleets.ofIndex index
    let otherFleets := Fleets.ofIndex other
    index.part mac = (CaptureIndex.ofFiles (filesOf mac files)).applyStages stages ∧
      index.channels mac = other.channels mac ∧
      (stages = otherStages →
        ∀ channel, index.entries mac channel = other.entries mac channel) ∧
      index.rowsOf mac = other.rowsOf mac ∧
      fleets.rxMer[mac]? = otherFleets.rxMer[mac]? ∧
      fleets.fec[mac]? = otherFleets.fec[mac]? ∧
      (∀ channel places, (fleets.rxMer[mac]?.map fun store => store.envelope channel places) =
        otherFleets.rxMer[mac]?.map fun store => store.envelope channel places) ∧
      ∀ channel, (fleets.fec[mac]?.map fun store => store.totals channel) =
        otherFleets.fec[mac]?.map fun store => store.totals channel := by
  intro index other fleets otherFleets
  have hpart : (CaptureIndex.ofFiles files).part mac = (CaptureIndex.ofFiles others).part mac := by
    rw [CaptureIndex.part_ofFiles, CaptureIndex.part_ofFiles, h]
  have hown : index.part mac = (CaptureIndex.ofFiles (filesOf mac files)).applyStages stages := by
    rw [CaptureIndex.part_applyStages, CaptureIndex.part_ofFiles]
  have hchannels : index.channels mac = other.channels mac := by
    rw [CaptureIndex.channels_applyStages, CaptureIndex.channels_applyStages,
      ← CaptureIndex.channels_part, hpart, CaptureIndex.channels_part]
  have hentries : stages = otherStages →
      ∀ channel, index.entries mac channel = other.entries mac channel := by
    rintro rfl channel
    rw [← CaptureIndex.entries_part index, ← CaptureIndex.entries_part other,
      CaptureIndex.part_applyStages, CaptureIndex.part_applyStages, hpart]
  have hrows : index.rowsOf mac = other.rowsOf mac := by
    rw [CaptureIndex.rowsOf_applyStages, CaptureIndex.rowsOf_applyStages,
      ← CaptureIndex.summary_part, hpart, CaptureIndex.summary_part]
  obtain ⟨hrxMer, hfec⟩ : fleets.rxMer[mac]? = otherFleets.rxMer[mac]? ∧
      fleets.fec[mac]? = otherFleets.fec[mac]? := by
    have hstores := Fleets.getElem?_ofIndex_of_part (.ofFiles files) (.ofFiles others)
      (fun _ => CaptureIndex.filed_of_mem_ofFiles) (fun _ => CaptureIndex.filed_of_mem_ofFiles) hpart
    rwa [← Fleets.ofIndex_applyStages files stages,
      ← Fleets.ofIndex_applyStages others otherStages] at hstores
  refine ⟨hown, hchannels, hentries, hrows, hrxMer, hfec, ?_, ?_⟩
  · intro channel places
    rw [hrxMer]
  · intro channel
    rw [hfec]

/-- The device of the empty summaries with the last octet 1. -/
def firstDevice : MacAddress := (MacAddress.ofOctets? [2, 0, 0, 0, 0, 1]).getD .unset

/-- Two summaries of the first device. -/
def quietFiles : List (String × List UInt8) :=
  [("early.bin", emptySummaryFile 1 2), ("late.bin", emptySummaryFile 1 3)]

/-- The same summaries among a file that is cut and two summaries of another device. -/
def crowdedFiles : List (String × List UInt8) :=
  [("other.bin", emptySummaryFile 2 2), ("early.bin", emptySummaryFile 1 2), ("cut.bin", [0x50, 0x4E]),
    ("late.bin", emptySummaryFile 1 3), ("last.bin", emptySummaryFile 2 3)]

theorem crowd_leaves_no_trace :
    let fleets := Fleets.ofIndex ((CaptureIndex.ofFiles quietFiles).applyStages [])
    let crowdedFleets := Fleets.ofIndex ((CaptureIndex.ofFiles crowdedFiles).applyStages [.sortByMac])
    filesOf firstDevice quietFiles = filesOf firstDevice crowdedFiles ∧
      fleets.fec[firstDevice]?.isSome ∧ fleets.fec[firstDevice]? = crowdedFleets.fec[firstDevice]? := by
  intro fleets crowdedFleets
  have hsame : filesOf firstDevice quietFiles = filesOf firstDevice crowdedFiles := by
    decide +kernel
  obtain ⟨-, -, -, -, -, hfec, -⟩ := device_follows_from_own_files hsame [] [.sortByMac]
  exact ⟨hsame, by decide +kernel, hfec⟩

end CableCapture
