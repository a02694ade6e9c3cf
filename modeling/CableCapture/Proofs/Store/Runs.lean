import CableCapture.Proofs.Store.Queries
import Mathlib.Data.List.Dedup
import Mathlib.Data.List.Induction

/-!
# What a store holds after a run

A store is offered captures one after another. The first one binds it to a device for good, and it
takes exactly the captures of that device. At every key it holds the last one that it took.
-/

namespace CableCapture

namespace CaptureStore

variable {α : Type} [CaptureRecord α]

/-! ## The latest captures -/

/-- The captures at their keys, where a later one replaces an earlier one. -/
def latest (records : List α) : Std.ExtTreeMap CaptureKey α :=
  records.foldl (fun captures r => captures.insert (CaptureRecord.key r) r) ∅

theorem latest_concat (records : List α) (r : α) :
    latest (records ++ [r]) = (latest records).insert (CaptureRecord.key r) r := by
  simp [latest]

theorem getElem?_latest (records : List α) (key : CaptureKey) :
    (latest records)[key]? =
      (records.filter fun r => CaptureRecord.key r = key).getLast? := by
  induction records using List.reverseRecOn with
  | nil => exact Std.ExtTreeMap.getElem?_empty
  | append_singleton records r ih =>
    rw [latest_concat, Std.ExtTreeMap.getElem?_insert, List.filter_append, ih]
    simp only [Std.LawfulEqOrd.compare_eq_iff_eq]
    by_cases hkey : CaptureRecord.key r = key
    · simp [hkey]
    · simp [hkey]

theorem mem_of_getElem?_latest {records : List α} {key : CaptureKey} {r : α}
    (h : (latest records)[key]? = some r) : r ∈ records ∧ CaptureRecord.key r = key := by
  rw [getElem?_latest] at h
  obtain ⟨hr, hkey⟩ := List.mem_filter.1 (List.mem_of_getLast? h)
  exact ⟨hr, of_decide_eq_true hkey⟩

theorem mem_latest {records : List α} {key : CaptureKey} :
    key ∈ latest records ↔ ∃ r ∈ records, CaptureRecord.key r = key := by
  rw [Std.ExtTreeMap.mem_iff_isSome_getElem?, getElem?_latest, Option.isSome_iff_ne_none, ne_eq,
    List.getLast?_eq_none_iff]
  simp only [List.filter_eq_nil_iff, decide_eq_true_eq, not_forall, not_not, exists_prop]

/-- Where no two captures share a key, none is replaced. -/
theorem getElem?_latest_of_nodup {records : List α} (h : (records.map CaptureRecord.key).Nodup)
    {key : CaptureKey} {r : α} :
    (latest records)[key]? = some r ↔ r ∈ records ∧ CaptureRecord.key r = key := by
  refine ⟨mem_of_getElem?_latest, ?_⟩
  rintro ⟨hr, hkey⟩
  obtain ⟨s, hs⟩ : ∃ s, (latest records)[key]? = some s :=
    Option.isSome_iff_exists.1 (Std.ExtTreeMap.mem_iff_isSome_getElem?.1 (mem_latest.2 ⟨r, hr, hkey⟩))
  obtain ⟨hmem, hsame⟩ := mem_of_getElem?_latest hs
  rw [hs, List.inj_on_of_nodup_map h hmem hr (hsame.trans hkey.symm)]

theorem latest_eq_of_perm {records others : List α} (hperm : records.Perm others)
    (hnodup : (records.map CaptureRecord.key).Nodup) : latest records = latest others := by
  have hother : (others.map CaptureRecord.key).Nodup := (hperm.map _).nodup_iff.1 hnodup
  apply Std.ExtTreeMap.ext_getElem?
  intro key
  apply Option.ext
  intro r
  rw [getElem?_latest_of_nodup hnodup, getElem?_latest_of_nodup hother, hperm.mem_iff]

theorem size_latest (records : List α) :
    (latest records).size = (records.map CaptureRecord.key).dedup.length := by
  rw [← Std.ExtTreeMap.length_keys]
  refine List.Perm.length_eq ?_
  refine (List.perm_ext_iff_of_nodup Std.ExtTreeMap.nodup_keys (List.nodup_dedup _)).2 fun key => ?_
  rw [Std.ExtTreeMap.mem_keys, mem_latest, List.mem_dedup, List.mem_map]

section OfLatest

variable {store : CaptureStore α} {records : List α} (h : store.captures = latest records)
include h

theorem keyed_of_latest : store.Keyed := by
  intro key r hr
  rw [h] at hr
  exact (mem_of_getElem?_latest hr).2

theorem mem_channels_of_latest {channel : UInt8} :
    channel ∈ store.channels ↔ ∃ r ∈ records, CaptureRecord.channel r = channel := by
  rw [mem_channels, h]
  simp only [mem_latest]
  constructor
  · rintro ⟨_, ⟨r, hr, rfl⟩, hchannel⟩
    exact ⟨r, hr, hchannel⟩
  · rintro ⟨r, hr, hchannel⟩
    exact ⟨CaptureRecord.key r, ⟨r, hr, rfl⟩, hchannel⟩

end OfLatest

/-! ## One capture -/

/-- A capture of the store's device is filed, and binds a store without one. Any other is refused and
leaves the store as it was. -/
theorem submit_cases (store : CaptureStore α) (r : α) :
    (∀ held, store.mac = some held → held = CaptureRecord.mac r) ∧
        (submit r).run store =
          .ok () ⟨some (CaptureRecord.mac r), store.captures.insert (CaptureRecord.key r) r⟩ ∨
      ∃ held, store.mac = some held ∧ held ≠ CaptureRecord.mac r ∧
        (submit r).run store = .error (.macMismatch held (CaptureRecord.mac r)) store := by
  obtain ⟨mac, captures⟩ := store
  cases mac with
  | none => exact .inl ⟨by simp, rfl⟩
  | some held =>
    by_cases hmac : held = CaptureRecord.mac r
    · subst hmac
      refine .inl ⟨by simp, ?_⟩
      simp [submit, EStateM.run_bind]
    · refine .inr ⟨held, rfl, hmac, ?_⟩
      simp [submit, hmac]

theorem add_cases (store : CaptureStore α) (r : α) :
    (∀ held, store.mac = some held → held = CaptureRecord.mac r) ∧
        store.add r =
          .ok ⟨some (CaptureRecord.mac r), store.captures.insert (CaptureRecord.key r) r⟩ ∨
      ∃ held, store.mac = some held ∧ held ≠ CaptureRecord.mac r ∧
        store.add r = .error (.macMismatch held (CaptureRecord.mac r)) := by
  unfold add
  rcases submit_cases store r with ⟨hheld, hsubmit⟩ | ⟨held, hstore, hother, hsubmit⟩
  · exact .inl ⟨hheld, by rw [hsubmit]⟩
  · exact .inr ⟨held, hstore, hother, by rw [hsubmit]⟩

/-- A store of one device takes every capture of the device. -/
theorem add_of_mac_eq {store : CaptureStore α} {r : α} {mac : MacAddress}
    (hstore : store.mac.getD mac = mac) (hr : CaptureRecord.mac r = mac) :
    store.add r = .ok ⟨some mac, store.captures.insert (CaptureRecord.key r) r⟩ := by
  rcases add_cases store r with ⟨-, hadd⟩ | ⟨held, hheld, hother, -⟩
  · rw [hadd, hr]
  · rw [hheld, Option.getD_some, ← hr] at hstore
    exact absurd hstore hother

/-- A refused offer leaves the store as it was. -/
theorem offer_eq (store : CaptureStore α) (r : α) :
    store.offer r =
      match store.add r with
      | .ok added => added
      | .error _ => store := by
  unfold offer add
  rcases submit_cases store r with ⟨-, hsubmit⟩ | ⟨held, -, -, hsubmit⟩
  · rw [hsubmit]
  · rw [hsubmit]

/-- Those captures that the store takes when they are offered to it one after another. -/
def taken (store : CaptureStore α) : List α → List α
  | [] => []
  | r :: rest =>
    match store.add r with
    | .ok added => r :: taken added rest
    | .error _ => taken store rest

/-! ## Runs -/

/-- The store after a number of captures were offered to an empty one. -/
def run (offered : List α) : CaptureStore α :=
  offered.foldl offer empty

section Offers

variable {store : CaptureStore α} {mac : MacAddress} (offered : List α)

theorem captures_foldl_offer :
    (offered.foldl offer store).captures =
      (store.taken offered).foldl
        (fun captures r => captures.insert (CaptureRecord.key r) r) store.captures := by
  induction offered generalizing store with
  | nil => rfl
  | cons r rest ih =>
    rw [List.foldl_cons, ih]
    rcases add_cases store r with ⟨-, hadd⟩ | ⟨held, -, -, hadd⟩
    · simp only [offer_eq, taken, hadd, List.foldl_cons]
    · simp only [offer_eq, taken, hadd]

theorem mac_foldl_offer (h : store.mac = some mac) : (offered.foldl offer store).mac = some mac := by
  induction offered generalizing store with
  | nil => exact h
  | cons r rest ih =>
    rw [List.foldl_cons]
    apply ih
    rcases add_cases store r with ⟨hheld, hadd⟩ | ⟨held, -, -, hadd⟩
    · simp only [offer_eq, hadd, hheld mac h]
    · simp only [offer_eq, hadd, h]

/-- A bound store takes the captures of its device and no others. -/
theorem taken_of_bound (h : store.mac = some mac) :
    store.taken offered = offered.filter fun r => mac = CaptureRecord.mac r := by
  induction offered generalizing store with
  | nil => rfl
  | cons r rest ih =>
    rcases add_cases store r with ⟨hheld, hadd⟩ | ⟨held, hstore, hother, hadd⟩
    · obtain rfl := hheld mac h
      have hrest : ∀ captures, taken ⟨some (CaptureRecord.mac r), captures⟩ rest =
          rest.filter fun s => CaptureRecord.mac r = CaptureRecord.mac s := fun _ => ih rfl
      simp [taken, hadd, hrest]
    · obtain rfl : held = mac := Option.some.inj (hstore.symm.trans h)
      simp [taken, hadd, ih h, hother]

end Offers

theorem captures_run (offered : List α) : (run offered).captures = latest (taken empty offered) :=
  captures_foldl_offer offered

theorem mac_run (offered : List α) : (run offered).mac = offered.head?.map CaptureRecord.mac := by
  cases offered with
  | nil => rfl
  | cons r rest =>
    have hadd : add empty r = .ok ⟨some (CaptureRecord.mac r), latest [r]⟩ :=
      add_of_mac_eq rfl rfl
    exact mac_foldl_offer rest (by rw [offer_eq, hadd])

theorem taken_run (offered : List α) :
    taken empty offered =
      offered.filter fun r => (run offered).mac = some (CaptureRecord.mac r) := by
  rw [mac_run]
  cases offered with
  | nil => rfl
  | cons r rest =>
    have hadd : add empty r = .ok ⟨some (CaptureRecord.mac r), latest [r]⟩ :=
      add_of_mac_eq rfl rfl
    have hrest : taken ⟨some (CaptureRecord.mac r), latest [r]⟩ rest =
        rest.filter fun s => CaptureRecord.mac r = CaptureRecord.mac s := taken_of_bound rest rfl
    simp [taken, hadd, hrest]

theorem run_append (offered more : List α) : run (offered ++ more) = more.foldl offer (run offered) :=
  List.foldl_append ..

theorem keyed_run (offered : List α) : (run offered).Keyed :=
  keyed_of_latest (captures_run offered)

theorem mem_of_mem_ofChannel {offered : List α} {channel : UInt8} {r : α}
    (h : r ∈ (run offered).ofChannel channel) : r ∈ offered := by
  obtain ⟨-, hr⟩ := (keyed_run offered).mem_ofChannel.1 h
  rw [captures_run] at hr
  have htaken := (mem_of_getElem?_latest hr).1
  rw [taken_run] at htaken
  exact (List.mem_filter.1 htaken).1

/-! ## All queries -/

/-- What a store answers that was offered these captures one after another. -/
structure Remembers (store : CaptureStore α) (offered : List α) : Prop where
  /-- The first capture binds the store. -/
  mac : store.mac = offered.head?.map CaptureRecord.mac
  /-- It takes the captures of its device. -/
  taken_eq : taken empty offered = offered.filter fun r => store.mac = some (CaptureRecord.mac r)
  /-- At every key is the last capture that was taken there. -/
  captures : ∀ key, store.captures[key]? =
    ((taken empty offered).filter fun r => CaptureRecord.key r = key).getLast?
  channels : store.channels.Pairwise (· < ·)
  mem_channels : ∀ channel, channel ∈ store.channels ↔
    ∃ r ∈ taken empty offered, CaptureRecord.channel r = channel
  /-- A channel lists what the store has at its keys. -/
  mem_ofChannel : ∀ channel r, r ∈ store.ofChannel channel ↔
    CaptureRecord.channel r = channel ∧ store.captures[CaptureRecord.key r]? = some r
  times : ∀ channel, (store.times channel).Pairwise (· < ·)
  /-- Captures and times of a channel are listed in one order. -/
  aligned : ∀ channel, (store.ofChannel channel).map CaptureRecord.time = store.times channel
  /-- The size counts keys. -/
  size : store.size = ((taken empty offered).map CaptureRecord.key).dedup.length
  isEmpty : store.isEmpty = true ↔ offered = []

theorem mem_channels_run {offered : List α} {channel : UInt8} :
    channel ∈ (run offered).channels ↔
      ∃ r ∈ taken empty offered, CaptureRecord.channel r = channel :=
  mem_channels_of_latest (captures_run offered)

theorem isEmpty_run {offered : List α} : (run offered).isEmpty = true ↔ offered = [] := by
  have hsize : (run offered).isEmpty = true ↔ (run offered).captures = ∅ := by
    rw [isEmpty, size, decide_eq_true_eq, Std.ExtTreeMap.eq_empty_iff_size_eq_zero]
  rw [hsize, captures_run]
  cases offered with
  | nil => exact iff_of_true rfl rfl
  | cons r rest =>
    refine iff_of_false (fun hempty => ?_) (List.cons_ne_nil r rest)
    -- the first capture is always taken
    have hfirst : r ∈ taken empty (r :: rest) := by simp [taken_run, mac_run]
    have hmem := mem_latest.2 ⟨r, hfirst, rfl⟩
    rw [hempty] at hmem
    exact Std.ExtTreeMap.not_mem_empty hmem

theorem remembers_run (offered : List α) : (run offered).Remembers offered where
  mac := mac_run offered
  taken_eq := taken_run offered
  captures key := by rw [captures_run, getElem?_latest]
  channels := pairwise_channels _
  mem_channels channel := mem_channels_run
  mem_ofChannel channel r := (keyed_run offered).mem_ofChannel
  times := pairwise_times _
  aligned channel := (keyed_run offered).map_time_ofChannel
  size := by rw [size, captures_run, size_latest]
  isEmpty := isEmpty_run

theorem run_of_one_device {offered : List α} {mac : MacAddress} (hne : offered ≠ [])
    (hmac : ∀ r ∈ offered, CaptureRecord.mac r = mac) : run offered = ⟨some mac, latest offered⟩ := by
  have hbound : (run offered).mac = some mac := by
    obtain ⟨r, rest, rfl⟩ := List.exists_cons_of_ne_nil hne
    rw [mac_run, List.head?_cons, Option.map_some, hmac r List.mem_cons_self]
  have htaken : taken empty offered = offered := by
    rw [taken_run, hbound, List.filter_eq_self]
    exact fun r hr => decide_eq_true (congrArg some (hmac r hr).symm)
  calc run offered
    _ = ⟨(run offered).mac, (run offered).captures⟩ := rfl
    _ = ⟨some mac, latest offered⟩ := by rw [hbound, captures_run, htaken]

/-- Captures of one device at keys of their own make the same store in every order. -/
theorem run_eq_of_perm {offered others : List α} {mac : MacAddress} (hperm : offered.Perm others)
    (hnodup : (offered.map CaptureRecord.key).Nodup)
    (hmac : ∀ r ∈ offered, CaptureRecord.mac r = mac) : run offered = run others := by
  by_cases hnil : offered = []
  · subst hnil
    rw [hperm.nil_eq]
  · have hother : others ≠ [] := by
      rintro rfl
      exact hnil hperm.eq_nil
    rw [run_of_one_device hnil hmac,
      run_of_one_device hother fun r hr => hmac r (hperm.mem_iff.2 hr),
      latest_eq_of_perm hperm hnodup]

/-! ## The guard -/

/-- How the store after a run deals with further captures. -/
structure Guards (offered : List α) : Prop where
  /-- The device never changes. -/
  bound : ∀ more held, (run offered).mac = some held → (run (offered ++ more)).mac = some held
  /-- A capture is taken unless the store is bound to another device. -/
  takes_iff : ∀ r, (∃ added, (run offered).add r = .ok added) ↔
    ∀ held, (run offered).mac = some held → held = CaptureRecord.mac r
  taken : ∀ r added, (run offered).add r = .ok added → run (offered ++ [r]) = added
  /-- A refusal names both devices. -/
  refuses : ∀ r held, (run offered).mac = some held → held ≠ CaptureRecord.mac r →
    (run offered).add r = .error (.macMismatch held (CaptureRecord.mac r))
  /-- What was refused leaves no trace. -/
  refused : ∀ r held, (run offered).mac = some held → held ≠ CaptureRecord.mac r →
    run (offered ++ [r]) = run offered

theorem run_concat (offered : List α) (r : α) :
    run (offered ++ [r]) = (run offered).offer r := by
  rw [run_append, List.foldl_cons, List.foldl_nil]

theorem add_of_other_device {store : CaptureStore α} {r : α} {held : MacAddress}
    (hstore : store.mac = some held) (hother : held ≠ CaptureRecord.mac r) :
    store.add r = .error (.macMismatch held (CaptureRecord.mac r)) := by
  rcases add_cases store r with ⟨hheld, -⟩ | ⟨bound, hbound, -, hadd⟩
  · exact absurd (hheld held hstore) hother
  · rwa [Option.some.inj (hbound.symm.trans hstore)] at hadd

theorem guards_run (offered : List α) : Guards offered where
  bound more held hheld := by
    rw [run_append]
    exact mac_foldl_offer more hheld
  takes_iff r := by
    rcases add_cases (run offered) r with ⟨hheld, hadd⟩ | ⟨held, hstore, hother, hadd⟩
    · exact iff_of_true ⟨_, hadd⟩ hheld
    · refine iff_of_false ?_ fun h => hother (h held hstore)
      rintro ⟨added, hadded⟩
      rw [hadd] at hadded
      cases hadded
  taken r added hadd := by rw [run_concat, offer_eq, hadd]
  refuses r held hstore hother := add_of_other_device hstore hother
  refused r held hstore hother := by rw [run_concat, offer_eq, add_of_other_device hstore hother]

/-! ## Main result -/

/-- A store is bound by the first capture that it is offered. From then on it takes the captures of
that device and refuses all others, which leaves it as it was, and it answers every query from the
latest captures that it took. Only a channel without captures is reported as missing. Where no key
repeats, the order of the captures of one device does not matter. -/
theorem run_keeps_latest_of_first_device :
    (∀ (α : Type) [CaptureRecord α] (offered : List α),
      (run offered).Remembers offered ∧ Guards offered ∧
      ∀ others mac, offered.Perm others → (offered.map CaptureRecord.key).Nodup →
        (∀ r ∈ offered, CaptureRecord.mac r = mac) → run offered = run others) ∧
    (∀ (α : Type) [CaptureRecord α] [HasSeries α] (offered : List α) channel places other,
      (run offered).envelope channel places = .error (.channelNotFound other) ↔
        other = channel ∧ channel ∉ (run offered).channels) ∧
    ∀ (offered : List FecSummary) channel fault,
      (run offered).totals channel = .error fault ↔
        fault = .channelNotFound channel ∧ channel ∉ (run offered).channels := by
  refine ⟨fun α _ offered => ⟨remembers_run offered, guards_run offered, ?_⟩, ?_, ?_⟩
  · intro others mac hperm hnodup hmac
    exact run_eq_of_perm hperm hnodup hmac
  · intro α _ _ offered channel places other
    exact envelope_eq_channelNotFound
  · intro offered channel fault
    exact totals_eq_error

/-- A summary without profiles, under the last octet of its address. -/
def bareSummary (octet : UInt8) : FecSummary where
  preamble := { kind := .fecSummary, major := 1, minor := 0, captureTime := 0 }
  channel := 3
  mac := (MacAddress.ofOctets? [2, 0, 0, 0, 0, octet]).getD .unset
  period := .tenMinutes
  profiles := []

theorem foreign_summary_refused :
    (run [bareSummary 1]).add (bareSummary 2) =
        .error (.macMismatch (bareSummary 1).mac (bareSummary 2).mac) ∧
      run [bareSummary 1, bareSummary 2] = run [bareSummary 1] := by
  obtain ⟨-, hguards, -⟩ := run_keeps_latest_of_first_device.1 FecSummary [bareSummary 1]
  have hstore : (run [bareSummary 1]).mac = some (bareSummary 1).mac := mac_run _
  have hother : (bareSummary 1).mac ≠ CaptureRecord.mac (bareSummary 2) := by decide
  exact ⟨hguards.refuses _ _ hstore hother, hguards.refused _ _ hstore hother⟩

end CaptureStore

end CableCapture
