import CableCapture.Proofs.Capture.Decoding
import CableCapture.Proofs.Capture.Header
import CableCapture.Proofs.Record.Counters
import CableCapture.Proofs.Store.Survivors

/-!
# Summaries in files

The header of an FEC summary has no room for a capture time. So all summaries of a channel share one
key, and a store that is fed from files knows the newest one of every channel only.
-/

namespace CableCapture

/-! ## Files with summaries -/

namespace FecSummary

/-- The FEC summary of a file, if it decodes to one. -/
def ofBytes? (bytes : List UInt8) : Option FecSummary :=
  match Capture.ofBytes bytes with
  | .ok (.fecSummary r) => some r
  | _ => none

theorem ofBytes?_eq_some {bytes : List UInt8} {r : FecSummary} :
    ofBytes? bytes = some r ↔ Capture.ofBytes bytes = .ok (.fecSummary r) := by
  unfold ofBytes?
  split
  · rename_i found hfound
    simp [hfound]
  · rename_i hother
    exact iff_of_false (by simp) (hother r)

/-- Only version 8 is the one of summaries, and that has no capture time. -/
theorem captureTime_of_ofBytes {bytes : List UInt8} {r : FecSummary}
    (h : Capture.ofBytes bytes = .ok (.fecSummary r)) :
    bytes[3]? = some 8 ∧ r.preamble.captureTime = 0 := by
  obtain ⟨header, hparse, hdecode⟩ := bind_eq_ok.1 h
  obtain ⟨hkind, hpreamble, hmem, -⟩ := Capture.decode_eq_ok.1 hdecode
  rw [List.mem_singleton.1 hmem] at hkind
  obtain ⟨-, -, hversion, hlayout⟩ := Header.toBytes_of_parse hparse hkind
  obtain ⟨tag, hlen, -, -, htime, rfl⟩ := Header.parse_eq_ok.1 hparse
  constructor
  · rw [List.getElem?_append_right (Nat.le_of_eq hlen), hlen]
    exact congrArg some hversion
  · have hcompact : header.layout = .compact := by rw [hlayout, hversion]; rfl
    rw [← htime hcompact]
    exact congrArg Preamble.captureTime hpreamble

end FecSummary

namespace CaptureStore

/-- Offers a file to a store of summaries. Other files are passed over. -/
def offerFile (store : CaptureStore FecSummary) (bytes : List UInt8) : CaptureStore FecSummary :=
  match Capture.ofBytes bytes with
  | .ok (.fecSummary r) => store.offer r
  | _ => store

/-- The store after a number of files were offered to an empty one. -/
def runFiles (files : List (List UInt8)) : CaptureStore FecSummary :=
  files.foldl offerFile empty

theorem foldl_offerFile (files : List (List UInt8)) (store : CaptureStore FecSummary) :
    files.foldl offerFile store = (files.filterMap FecSummary.ofBytes?).foldl offer store := by
  induction files generalizing store with
  | nil => rfl
  | cons bytes rest ih =>
    rw [List.foldl_cons, ih]
    unfold offerFile
    split
    · rename_i r hdecode
      rw [List.filterMap_cons_some (FecSummary.ofBytes?_eq_some.2 hdecode), List.foldl_cons]
    · rename_i hother
      have hnone : FecSummary.ofBytes? bytes = none :=
        Option.eq_none_iff_forall_ne_some.2 fun r hr => hother r (FecSummary.ofBytes?_eq_some.1 hr)
      rw [List.filterMap_cons_none hnone]

/-- A run over files is one over the summaries in them. -/
theorem runFiles_eq_run (files : List (List UInt8)) :
    runFiles files = run (files.filterMap FecSummary.ofBytes?) :=
  foldl_offerFile files empty

/-! ## Captures without times -/

section Untimed

variable {α : Type} [CaptureRecord α] {store : CaptureStore α} {records : List α} {channel : UInt8}

theorem survives_of_untimed (htime : ∀ r ∈ records, CaptureRecord.time r = 0) {r : α} :
    Survives records r ↔ records.getLast? = some r := by
  have hrivals (hr : r ∈ records) :
      records.filter (fun s => CaptureRecord.time s = CaptureRecord.time r) = records :=
    List.filter_eq_self.2 fun s hs => decide_eq_true ((htime s hs).trans (htime r hr).symm)
  constructor
  · intro hr
    have hmem := hr.mem
    rwa [Survives, hrivals hmem] at hr
  · intro hlast
    rwa [Survives, hrivals (List.mem_of_getLast? hlast)]

variable (h : store.captures = latest records) (htime : ∀ r ∈ records, CaptureRecord.time r = 0)
include h htime

/-- All captures of a channel compete for one key, so the newest of them is what is left. -/
theorem ofChannel_of_untimed {newest : α}
    (hnewest : (records.filter fun r => CaptureRecord.channel r = channel).getLast? = some newest) :
    store.ofChannel channel = [newest] := by
  have hnodup : (store.ofChannel channel).Nodup := by
    apply List.Nodup.of_map CaptureRecord.time
    rw [(keyed_of_latest h).map_time_ofChannel]
    exact (pairwise_times store channel).imp UInt32.ne_of_lt
  refine List.perm_singleton.1 ((List.perm_ext_iff_of_nodup hnodup (List.nodup_singleton _)).2 ?_)
  intro r
  rw [mem_ofChannel_of_latest h, survives_of_untimed, hnewest, Option.some_inj, List.mem_singleton,
    eq_comm]
  exact fun s hs => htime s (List.mem_filter.1 hs).1

theorem size_of_untimed : store.size = store.channels.length := by
  have hkeys : records.map CaptureRecord.key =
      (records.map CaptureRecord.channel).map fun channel => ⟨channel, 0⟩ := by
    rw [List.map_map]
    exact List.map_congr_left fun r hr => congrArg (CaptureKey.mk _) (htime r hr)
  have hinjective : Function.Injective fun channel : UInt8 => (⟨channel, 0⟩ : CaptureKey) :=
    fun a b hab => congrArg CaptureKey.channel hab
  have hchannels : (records.map CaptureRecord.channel).dedup.Perm store.channels := by
    have hnodup : store.channels.Nodup := (pairwise_channels store).imp UInt8.ne_of_lt
    refine (List.perm_ext_iff_of_nodup (List.nodup_dedup _) hnodup).2 fun channel => ?_
    rw [List.mem_dedup, List.mem_map, mem_channels_of_latest h]
  rw [size, h, size_latest, hkeys, List.dedup_map_of_injective hinjective, List.length_map,
    hchannels.length_eq]

end Untimed

/-! ## Main result -/

/-- Files fill a store of summaries with those of the first summary's device, and of every channel it
keeps the newest one, whatever summaries came before it. So a channel has the one time zero, its totals
are those of the newest summary, and the store has as many captures as channels. -/
theorem totals_of_newest_summary (files : List (List UInt8)) :
    let store := runFiles files
    let summaries := files.filterMap FecSummary.ofBytes?
    let accepted := taken empty summaries
    (∀ bytes r, Capture.ofBytes bytes = .ok (.fecSummary r) →
      bytes[3]? = some 8 ∧ r.preamble.captureTime = 0) ∧
    (accepted = summaries.filter fun r => summaries.head?.map (·.mac) = some r.mac) ∧
    (∀ channel, channel ∈ store.channels ↔ ∃ r ∈ accepted, r.channel = channel) ∧
    (∀ channel ∈ store.channels, ∃ newest,
      (accepted.filter fun r => r.channel = channel).getLast? = some newest ∧
        store.times channel = [0] ∧ store.ofChannel channel = [newest] ∧
        store.totals channel = .ok newest.totals) ∧
    store.size = store.channels.length := by
  intro store summaries accepted
  have hlatest : store.captures = latest accepted := by
    have hstore : store = run summaries := runFiles_eq_run files
    rw [hstore]
    exact captures_run _
  have haccepted : accepted =
      summaries.filter fun r => summaries.head?.map (·.mac) = some r.mac := by
    have htaken : accepted = summaries.filter fun r => (run summaries).mac = some r.mac :=
      taken_run summaries
    rw [htaken, mac_run]
    rfl
  have htime : ∀ r ∈ accepted, CaptureRecord.time r = 0 := by
    intro r hr
    rw [haccepted] at hr
    -- what is taken was offered
    obtain ⟨bytes, -, hbytes⟩ := List.mem_filterMap.1 (List.mem_filter.1 hr).1
    exact (FecSummary.captureTime_of_ofBytes (FecSummary.ofBytes?_eq_some.1 hbytes)).2
  refine ⟨fun bytes r => FecSummary.captureTime_of_ofBytes, haccepted,
    fun channel => mem_channels_of_latest hlatest, ?_, size_of_untimed hlatest htime⟩
  intro channel hchannel
  obtain ⟨newest, hnewest⟩ : ∃ newest,
      (accepted.filter fun r => r.channel = channel).getLast? = some newest := by
    obtain ⟨r, hr, hsame⟩ := (mem_channels_of_latest hlatest).1 hchannel
    have hmem : r ∈ accepted.filter fun r => r.channel = channel :=
      List.mem_filter.2 ⟨hr, decide_eq_true hsame⟩
    exact ⟨_, List.getLast?_eq_some_getLast (List.ne_nil_of_mem hmem)⟩
  have hcaptures : store.ofChannel channel = [newest] := ofChannel_of_untimed hlatest htime hnewest
  refine ⟨newest, hnewest, ?_, hcaptures, ?_⟩
  · have hmem : newest ∈ accepted := (List.mem_filter.1 (List.mem_of_getLast? hnewest)).1
    rw [← (keyed_of_latest hlatest).map_time_ofChannel, hcaptures, List.map_singleton,
      htime newest hmem]
  · rw [totals, require_eq_ok_of_mem hchannel, hcaptures, ok_bind, List.foldl_cons, List.foldl_nil,
      FecTotals.merge_empty]
    rfl

end CaptureStore

end CableCapture
