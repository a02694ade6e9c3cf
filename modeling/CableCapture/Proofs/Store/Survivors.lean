import CableCapture.Proofs.Store.Runs

/-!
# What is left of a channel

Captures of a channel that share a time compete for one key, and the last of them survives. A store of
the latest captures answers for a channel with the survivors, one for every time.
-/

namespace CableCapture

namespace CaptureStore

variable {α : Type} [CaptureRecord α] {records : List α} {r : α}

/-- Of the captures with its time, this one is the last. -/
def Survives (records : List α) (r : α) : Prop :=
  (records.filter fun s => CaptureRecord.time s = CaptureRecord.time r).getLast? = some r

theorem Survives.mem (h : Survives records r) : r ∈ records :=
  (List.mem_filter.1 (List.mem_of_getLast? h)).1

theorem exists_survivor (hr : r ∈ records) :
    ∃ s, Survives records s ∧ CaptureRecord.time s = CaptureRecord.time r := by
  have hne : (records.filter fun s => CaptureRecord.time s = CaptureRecord.time r) ≠ [] :=
    List.ne_nil_of_mem (List.mem_filter.2 ⟨hr, decide_eq_true rfl⟩)
  have hlast := List.getLast?_eq_some_getLast hne
  have htime := of_decide_eq_true (List.mem_filter.1 (List.getLast_mem hne)).2
  exact ⟨_, by rwa [Survives, htime], htime⟩

section OfLatest

variable {store : CaptureStore α} (h : store.captures = latest records) {channel : UInt8}
include h

/-- A channel's captures are the survivors among those that were filed for it. -/
theorem mem_ofChannel_of_latest :
    r ∈ store.ofChannel channel ↔
      Survives (records.filter fun s => CaptureRecord.channel s = channel) r := by
  have hrivals (hchannel : CaptureRecord.channel r = channel) :
      records.filter (fun s => CaptureRecord.key s = CaptureRecord.key r) =
        (records.filter fun s => CaptureRecord.channel s = channel).filter
          fun s => CaptureRecord.time s = CaptureRecord.time r := by
    rw [List.filter_filter]
    simp [CaptureRecord.key, hchannel, Bool.and_comm]
  rw [(keyed_of_latest h).mem_ofChannel, h, getElem?_latest]
  constructor
  · rintro ⟨hchannel, hlast⟩
    rwa [Survives, ← hrivals hchannel]
  · intro hr
    have hchannel := of_decide_eq_true (List.mem_filter.1 hr.mem).2
    exact ⟨hchannel, by rwa [Survives, ← hrivals hchannel] at hr⟩

theorem times_of_latest :
    (store.times channel).Perm
      ((records.filter fun s => CaptureRecord.channel s = channel).map CaptureRecord.time).dedup := by
  have hnodup : (store.times channel).Nodup := (pairwise_times store channel).imp UInt32.ne_of_lt
  refine (List.perm_ext_iff_of_nodup hnodup (List.nodup_dedup _)).2 fun time => ?_
  rw [← (keyed_of_latest h).map_time_ofChannel, List.mem_map, List.mem_dedup, List.mem_map]
  simp only [mem_ofChannel_of_latest h]
  constructor
  · rintro ⟨r, hr, rfl⟩
    exact ⟨r, hr.mem, rfl⟩
  · rintro ⟨r, hr, rfl⟩
    exact exists_survivor hr

/-- Every time of a channel has one survivor. -/
theorem length_ofChannel_of_latest :
    (store.ofChannel channel).length =
      ((records.filter fun s => CaptureRecord.channel s = channel).map
        CaptureRecord.time).dedup.length := by
  rw [← (times_of_latest h).length_eq, ← (keyed_of_latest h).map_time_ofChannel, List.length_map]

end OfLatest

end CaptureStore

end CableCapture
