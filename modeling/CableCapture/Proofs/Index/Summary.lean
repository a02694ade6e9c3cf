import CableCapture.Libraries
import CableCapture.Proofs.FirstOccurrences
import CableCapture.Proofs.Index.Stages
import Mathlib.Data.List.Sort

/-!
# Rows of the summary

A row lists the kinds of its channel in order and once each. A capture time of zero stands for a
missing one, yet it takes part when a row looks for its least and its greatest time. It is never the
greatest beside a recorded time, but it is always the least.
-/

namespace CableCapture

/-! ## Kinds -/

namespace CaptureKind

theorem mem_all (kind : CaptureKind) : kind ∈ all :=
  List.mem_of_getElem? (getElem?_all_rank kind)

theorem pairwise_all : all.Pairwise fun a b => a.rank < b.rank := by decide

/-- Kinds that are sorted by their ranks and freed of repetitions are those of the table that occur. -/
theorem eraseReps_mergeSort (kinds : List CaptureKind) :
    (kinds.mergeSort fun a b => a.rank ≤ b.rank).eraseReps = all.filter fun kind => kind ∈ kinds := by
  have hasymm : Std.Antisymm fun a b : CaptureKind => a.rank < b.rank :=
    ⟨fun _ _ hlt hgt => absurd hlt hgt.asymm⟩
  have hirrefl : Std.Irrefl fun a b : CaptureKind => a.rank < b.rank := ⟨fun _ => lt_irrefl _⟩
  have hsorted := pairwise_eraseReps (fun _ _ h => rank_injective h)
    (pairwise_mergeSort_key rank kinds)
  refine List.Pairwise.eq_of_mem_iff hsorted (pairwise_all.filter _) fun kind => ?_
  rw [mem_eraseReps, (List.mergeSort_perm _ _).mem_iff, List.mem_filter, decide_eq_true_iff,
    and_iff_right (mem_all kind)]

end CaptureKind

/-! ## Lists of times -/

namespace Timestamp

theorem bind_text? [Calendar] (time? : Option UInt32) :
    time?.bind text? = (time?.filter fun time => time ≠ 0).map Calendar.rfc3339 := by
  cases time? with
  | none => rfl
  | some time =>
    by_cases h : time = 0
    · simp [text?, h]
    · simp [text?, h]

section Extremes

variable {times : List UInt32}

theorem min?_eq_zero (h : 0 ∈ times) : times.min? = some 0 :=
  List.min?_eq_some_iff.2 ⟨h, fun _ _ => UInt32.zero_le⟩

theorem filter_min? (h : ∀ time ∈ times, time ≠ 0) :
    (times.min?.filter fun time => time ≠ 0) = times.min? := by
  cases hmin : times.min? with
  | none => rfl
  | some least =>
    obtain ⟨hmem, -⟩ := List.min?_eq_some_iff.1 hmin
    exact Option.filter_some_pos (decide_eq_true (h least hmem))

/-- Zero is no upper bound of anything else, so leaving it out moves the maximum only if nothing else
is there. -/
theorem max?_filter_ne_zero :
    (times.filter fun time => time ≠ 0).max? = times.max?.filter fun time => time ≠ 0 := by
  cases hmax : times.max? with
  | none =>
    rw [List.max?_eq_none_iff.1 hmax]
    rfl
  | some greatest =>
    obtain ⟨hmem, hle⟩ := List.max?_eq_some_iff.1 hmax
    by_cases hzero : greatest = 0
    · have hnone : times.filter (fun time => time ≠ 0) = [] := by
        apply List.filter_eq_nil_iff.2
        intro time htime
        have hle := hle time htime
        rw [hzero, UInt32.le_zero_iff] at hle
        simp [hle]
      rw [hnone, hzero]
      rfl
    · rw [Option.filter_some_pos (by simpa using hzero)]
      refine List.max?_eq_some_iff.2 ⟨List.mem_filter.2 ⟨hmem, by simpa using hzero⟩, ?_⟩
      intro time htime
      exact hle time (List.mem_filter.1 htime).1

end Extremes

end Timestamp

/-! ## Rows -/

/-- The capture times that these entries recorded. -/
def recordedTimes (es : List IndexEntry) : List UInt32 :=
  (es.map IndexEntry.time).filter fun time => time ≠ 0

namespace CaptureIndex

open Timestamp

section Rows

variable [Calendar] {mac : MacAddress} {g : ChannelGroup}

/-- A row lists the sorted kinds of its channel's entries without their repetitions. -/
theorem SummaryRow.kinds_ofGroup :
    (ofGroup mac g).kinds =
      ((g.entries.map IndexEntry.kind).mergeSort fun a b => a.rank ≤ b.rank).eraseReps := by
  rw [CaptureKind.eraseReps_mergeSort]
  refine List.filter_congr fun kind _ => ?_
  rw [Bool.eq_iff_iff, List.any_eq_true, decide_eq_true_iff, List.mem_map]
  simp only [decide_eq_true_iff]

theorem SummaryRow.lastCapture_ofGroup :
    (ofGroup mac g).lastCapture = (recordedTimes g.entries).max?.map Calendar.rfc3339 := by
  rw [recordedTimes, max?_filter_ne_zero, ← bind_text?]
  rfl

theorem SummaryRow.firstCapture_of_missing (h : ∃ e ∈ g.entries, e.time = 0) :
    (ofGroup mac g).firstCapture = none := by
  have hzero : 0 ∈ g.entries.map IndexEntry.time := List.mem_map.2 h
  calc (ofGroup mac g).firstCapture
    _ = (g.entries.map IndexEntry.time).min?.bind text? := rfl
    _ = (some 0).bind text? := by rw [min?_eq_zero hzero]
    _ = none := rfl

theorem SummaryRow.firstCapture_of_recorded (h : ∀ e ∈ g.entries, e.time ≠ 0) :
    (ofGroup mac g).firstCapture = (recordedTimes g.entries).min?.map Calendar.rfc3339 := by
  have htimes : ∀ time ∈ g.entries.map IndexEntry.time, time ≠ 0 := List.forall_mem_map.2 h
  have hall : recordedTimes g.entries = g.entries.map IndexEntry.time :=
    List.filter_eq_self.2 fun time htime => decide_eq_true (htimes time htime)
  calc (ofGroup mac g).firstCapture
    _ = (g.entries.map IndexEntry.time).min?.bind text? := rfl
    _ = (g.entries.map IndexEntry.time).min?.map Calendar.rfc3339 := by
      rw [bind_text?, filter_min? htimes]
    _ = (recordedTimes g.entries).min?.map Calendar.rfc3339 := by rw [hall]

/-- How the capture times of a row relate to those of its channel's entries. -/
structure SummaryRow.Times (row : SummaryRow) (es : List IndexEntry) : Prop where
  last : row.lastCapture = (recordedTimes es).max?.map Calendar.rfc3339
  first : (∀ e ∈ es, e.time ≠ 0) →
    row.firstCapture = (recordedTimes es).min?.map Calendar.rfc3339
  missing : (∃ e ∈ es, e.time = 0) → row.firstCapture = none

/-- A row names the earliest recorded time of its channel just where no time is missing beside it. -/
theorem SummaryRow.Times.first_iff {row : SummaryRow} {es : List IndexEntry} (h : row.Times es) :
    row.firstCapture = (recordedTimes es).min?.map Calendar.rfc3339 ↔
      recordedTimes es = [] ∨ ∀ e ∈ es, e.time ≠ 0 := by
  by_cases hmissing : ∃ e ∈ es, e.time = 0
  · have hnot : ¬ ∀ e ∈ es, e.time ≠ 0 := by simpa using hmissing
    rw [h.missing hmissing, eq_comm, Option.map_eq_none_iff, List.min?_eq_none_iff,
      or_iff_left hnot]
  · have hall : ∀ e ∈ es, e.time ≠ 0 := by simpa using hmissing
    exact iff_of_true (h.first hall) (.inr hall)

theorem SummaryRow.Times.last_eq_none {row : SummaryRow} {es : List IndexEntry}
    (h : row.Times es) : row.lastCapture = none ↔ recordedTimes es = [] := by
  rw [h.last, Option.map_eq_none_iff, List.max?_eq_none_iff]

theorem SummaryRow.times_ofGroup : (ofGroup mac g).Times g.entries where
  last := lastCapture_ofGroup
  first := firstCapture_of_recorded
  missing := firstCapture_of_missing

theorem WellFormed.times_of_mem_summary {index : CaptureIndex} (h : index.WellFormed)
    {row : SummaryRow} (hrow : row ∈ index.summary) :
    row.Times (index.entries row.mac row.channel) := by
  obtain ⟨device, hdevice, hrow⟩ := List.mem_flatMap.1 hrow
  obtain ⟨g, hg, rfl⟩ := List.mem_map.1 hrow
  have hentries : index.entries device.mac g.channel = g.entries := h.entries_eq hdevice hg
  exact hentries ▸ SummaryRow.times_ofGroup

/-! ## Main result -/

/-- Whatever the steps, a row of the summary names the latest recorded time of its channel, and none
only if no time was recorded. It names the earliest one unless the channel also has a capture without
a time, which hides it. -/
theorem times_of_mem_summary_run (steps : List Step) {row : SummaryRow}
    (hrow : row ∈ (run steps).summary) :
    let es := (run steps).entries row.mac row.channel
    row.Times es ∧ (row.lastCapture = none ↔ recordedTimes es = []) ∧
      (row.firstCapture = (recordedTimes es).min?.map Calendar.rfc3339 ↔
        recordedTimes es = [] ∨ ∀ e ∈ es, e.time ≠ 0) := by
  intro es
  have htimes : row.Times es := (WellFormed.run steps).times_of_mem_summary hrow
  exact ⟨htimes, htimes.last_eq_none, htimes.first_iff⟩

end Rows

/-- One channel with a summary, whose header has no room for a time, and with levels that were
measured at 1700000000. -/
def mixedFiles : List (String × List UInt8) :=
  [("fec.bin", [0x50, 0x4E, 0x4E, 8, 1, 0, 3, 2, 0, 0, 0, 0, 1, 2, 0]),
    ("mer.bin", [0x50, 0x4E, 0x4E, 4, 1, 0, 0x65, 0x53, 0xF1, 0, 3, 2, 0, 0, 0, 0, 1,
      0x05, 0xF5, 0xE1, 0, 0, 0, 50, 0, 0, 0, 1, 160])]

/-- The steps that index the files. -/
def mixedSteps : List Step :=
  (mixedFiles.filterMap fun (name, bytes) => (IndexEntry.ofFile name bytes).toOption).map .insert

def mixedRow : SummaryRow where
  mac := (MacAddress.ofOctets? [2, 0, 0, 0, 0, 1]).getD .unset
  channel := 3
  captureCount := 2
  kinds := [.rxMer, .fecSummary]
  firstCapture := none
  lastCapture := some "2023-11-14T22:13:20+00:00"

theorem mixedRow_times :
    mixedRow ∈ (run mixedSteps).summary ∧
      mixedRow.Times ((run mixedSteps).entries mixedRow.mac mixedRow.channel) := by
  have hrow : mixedRow ∈ (run mixedSteps).summary := by decide +kernel
  exact ⟨hrow, (times_of_mem_summary_run mixedSteps hrow).1⟩

/-- The missing time of the summary hides the only recorded one. -/
theorem recorded_time_hidden :
    ∃ row ∈ (run mixedSteps).summary,
      recordedTimes ((run mixedSteps).entries row.mac row.channel) = [1700000000] ∧
        row.firstCapture ≠
          (recordedTimes ((run mixedSteps).entries row.mac row.channel)).min?.map
            Calendar.rfc3339 := by
  decide +kernel

end CaptureIndex

end CableCapture
