import CableCapture.Proofs.Store.Runs
import Mathlib.Algebra.GroupWithZero.Nat
import Mathlib.Data.List.Sort

/-!
# Maps of maps

A device's captures can be kept in a map from channels to maps from times. Such a store refuses the
same captures and answers every query alike. This rests on its maps never being empty: a channel gets
its map together with its first capture, and a refusal comes before that.
-/

namespace CableCapture

/-! ## Nested stores -/

/-- For every channel a map of its captures by time. -/
abbrev ChannelMaps (α : Type) := Std.ExtTreeMap UInt8 (Std.ExtTreeMap UInt32 α)

namespace ChannelMaps

variable {α : Type}

/-- Files a capture under its channel, which is given a map if it has none. -/
def file [CaptureRecord α] (maps : ChannelMaps α) (capture : α) : ChannelMaps α :=
  maps.alter (CaptureRecord.channel capture) fun captures? =>
    some ((captures?.getD ∅).insert (CaptureRecord.time capture) capture)

end ChannelMaps

structure NestedStore (α : Type) where
  mac : Option MacAddress
  maps : ChannelMaps α

namespace NestedStore

variable {α : Type}

def empty : NestedStore α := ⟨none, ∅⟩

/-- Offers a capture to the store. -/
def submit [CaptureRecord α] (capture : α) : EStateM Fault (NestedStore α) Unit := do
  let offered := CaptureRecord.mac capture
  match (← get).mac with
  | some held =>
    if held ≠ offered then
      throw (.macMismatch held offered)
  | none => modify fun store => { store with mac := some offered }
  modify fun store => { store with maps := store.maps.file capture }

/-- The store after a capture was offered to it, taken or not. -/
def offer [CaptureRecord α] (store : NestedStore α) (capture : α) : NestedStore α :=
  match (submit capture).run store with
  | .ok _ after => after
  | .error _ after => after

/-- The store after a number of captures were offered to an empty one. -/
def run [CaptureRecord α] (offered : List α) : NestedStore α :=
  offered.foldl offer empty

def channels (store : NestedStore α) : List UInt8 := store.maps.keys

def ofChannel (store : NestedStore α) (channel : UInt8) : List α :=
  match store.maps[channel]? with
  | some captures => captures.toList.map Prod.snd
  | none => []

def times (store : NestedStore α) (channel : UInt8) : List UInt32 :=
  match store.maps[channel]? with
  | some captures => captures.keys
  | none => []

def size (store : NestedStore α) : ℕ :=
  (store.maps.toList.map fun entry => entry.2.size).sum

def isEmpty (store : NestedStore α) : Bool := store.size = 0

/-- The captures of a channel that has a map, be it empty. -/
def require (store : NestedStore α) (channel : UInt8) : Except Fault (List α) :=
  match store.maps[channel]? with
  | some captures => .ok (captures.toList.map Prod.snd)
  | none => .error (.channelNotFound channel)

def envelope [CaptureStore.HasSeries α] (store : NestedStore α) (channel : UInt8)
    (places : UInt32) : Except Fault Envelope := do
  let captures ← store.require channel
  Envelope.compute channel places (captures.map CaptureStore.HasSeries.series)

def totals (store : NestedStore FecSummary) (channel : UInt8) : Except Fault FecTotals := do
  let summaries ← store.require channel
  return summaries.foldl (fun totals summary => totals.merge summary.totals) ∅

end NestedStore

/-! ## One map for all of them -/

/-- The map of a channel, empty if it has none. -/
def ChannelMaps.mapOf {α : Type} (maps : ChannelMaps α) (channel : UInt8) :
    Std.ExtTreeMap UInt32 α :=
  maps[channel]?.getD ∅

/-- The maps of the channels hold what one map holds, and none of them is empty. -/
structure ChannelMaps.Split {α : Type} (maps : ChannelMaps α)
    (captures : Std.ExtTreeMap CaptureKey α) : Prop where
  getElem? : ∀ key : CaptureKey, captures[key]? = (maps.mapOf key.channel)[key.time]?
  filled : ∀ channel ∈ maps, maps.mapOf channel ≠ ∅

namespace ChannelMaps

variable {α : Type} {maps : ChannelMaps α} {captures : Std.ExtTreeMap CaptureKey α}

theorem Split.empty : Split (∅ : ChannelMaps α) ∅ where
  getElem? key := by
    rw [mapOf, Std.ExtTreeMap.getElem?_empty, Std.ExtTreeMap.getElem?_empty, Option.getD_none,
      Std.ExtTreeMap.getElem?_empty]
  filled channel h := absurd h Std.ExtTreeMap.not_mem_empty

theorem mapOf_file [CaptureRecord α] (maps : ChannelMaps α) (r : α) (channel : UInt8) :
    (maps.file r).mapOf channel =
      if CaptureRecord.channel r = channel then
        (maps.mapOf channel).insert (CaptureRecord.time r) r
      else maps.mapOf channel := by
  simp only [mapOf, file, Std.ExtTreeMap.getElem?_alter, Std.LawfulEqOrd.compare_eq_iff_eq]
  split
  · rename_i hchannel
    rw [hchannel, Option.getD_some]
  · rfl

/-- To file a capture in the map of its channel is to file it under its key. -/
theorem Split.file [CaptureRecord α] (h : maps.Split captures) (r : α) :
    (maps.file r).Split (captures.insert (CaptureRecord.key r) r) where
  getElem? key := by
    have hkey : CaptureRecord.key r = key ↔
        CaptureRecord.channel r = key.channel ∧ CaptureRecord.time r = key.time := by
      cases key
      exact Iff.of_eq (CaptureKey.mk.injEq ..)
    rw [Std.ExtTreeMap.getElem?_insert, mapOf_file, h.getElem?]
    simp only [Std.LawfulEqOrd.compare_eq_iff_eq, hkey]
    by_cases hchannel : CaptureRecord.channel r = key.channel
    · simp [hchannel, Std.ExtTreeMap.getElem?_insert]
    · simp [hchannel]
  filled channel hmem := by
    rw [mapOf_file]
    split
    · exact Std.ExtTreeMap.insert_ne_empty
    · rename_i hchannel
      unfold ChannelMaps.file at hmem
      rw [Std.ExtTreeMap.mem_alter, if_neg (by rwa [Std.LawfulEqOrd.compare_eq_iff_eq])] at hmem
      exact h.filled channel hmem

end ChannelMaps

/-- The two stores hold the same captures of the same device. -/
structure Represents {α : Type} (store : CaptureStore α) (nested : NestedStore α) : Prop where
  mac : store.mac = nested.mac
  split : nested.maps.Split store.captures

/-! ## Queries -/

namespace ChannelMaps.Split

variable {α : Type} {maps : ChannelMaps α} {captures : Std.ExtTreeMap CaptureKey α}
  (h : maps.Split captures)
include h

theorem mem_maps {channel : UInt8} : channel ∈ maps ↔ ∃ key ∈ captures, key.channel = channel := by
  constructor
  · intro hmem
    obtain ⟨time, htime⟩ : ∃ time, time ∈ maps.mapOf channel := by
      by_contra hnone
      exact h.filled channel hmem
        (Std.ExtTreeMap.eq_empty_iff_forall_not_mem.2 (not_exists.1 hnone))
    refine ⟨⟨channel, time⟩, ?_, rfl⟩
    rwa [Std.ExtTreeMap.mem_iff_isSome_getElem?, h.getElem?,
      ← Std.ExtTreeMap.mem_iff_isSome_getElem?]
  · rintro ⟨key, hkey, rfl⟩
    rw [Std.ExtTreeMap.mem_iff_isSome_getElem?, h.getElem?, mapOf] at hkey
    by_contra hnone
    rw [Std.ExtTreeMap.getElem?_eq_none hnone, Option.getD_none,
      Std.ExtTreeMap.getElem?_empty] at hkey
    cases hkey

/-- The keys of a channel are its times, and the channels follow one another. -/
theorem keys_eq :
    captures.keys = maps.toList.flatMap fun entry => entry.2.keys.map (CaptureKey.mk entry.1) := by
  have hasymm : Std.Asymm fun a b : CaptureKey => compare a b = .lt :=
    ⟨fun _ _ => Std.OrientedCmp.not_lt_of_lt⟩
  refine List.Pairwise.eq_of_mem_iff Std.ExtTreeMap.ordered_keys ?_ fun key => ?_
  · refine List.pairwise_flatMap.2 ⟨fun entry _ => List.pairwise_map.2 ?_, ?_⟩
    · refine Std.ExtTreeMap.ordered_keys.imp fun htime => ?_
      exact CaptureKey.compare_eq_lt.2 (.inr ⟨rfl, Std.compare_eq_lt.1 htime⟩)
    · refine Std.ExtTreeMap.ordered_keys_toList.imp fun hchannel => ?_
      refine List.forall_mem_map.2 fun time _ => List.forall_mem_map.2 fun other _ => ?_
      exact CaptureKey.compare_eq_lt.2 (.inl (Std.compare_eq_lt.1 hchannel))
  · rw [Std.ExtTreeMap.mem_keys, Std.ExtTreeMap.mem_iff_isSome_getElem?, h.getElem?, mapOf,
      List.mem_flatMap]
    constructor
    · intro hkey
      cases hmap : maps[key.channel]? with
      | none => simp [hmap] at hkey
      | some channelMap =>
        rw [hmap, Option.getD_some, ← Std.ExtTreeMap.mem_iff_isSome_getElem?] at hkey
        exact ⟨(key.channel, channelMap), Std.ExtTreeMap.mem_toList_iff_getElem?_eq_some.2 hmap,
          List.mem_map.2 ⟨key.time, Std.ExtTreeMap.mem_keys.2 hkey, rfl⟩⟩
    · rintro ⟨⟨channel, channelMap⟩, hentry, hkey⟩
      obtain ⟨time, htime, rfl⟩ := List.mem_map.1 hkey
      rw [Std.ExtTreeMap.mem_toList_iff_getElem?_eq_some] at hentry
      rwa [hentry, Option.getD_some, ← Std.ExtTreeMap.mem_iff_isSome_getElem?,
        ← Std.ExtTreeMap.mem_keys]

theorem size_eq : captures.size = (maps.toList.map fun entry => entry.2.size).sum := by
  rw [← Std.ExtTreeMap.length_keys, h.keys_eq, List.length_flatMap]
  simp only [List.length_map, Std.ExtTreeMap.length_keys]

end ChannelMaps.Split

namespace Represents

variable {α : Type} {store : CaptureStore α} {nested : NestedStore α}
  (h : Represents store nested)
include h

theorem channels_eq : store.channels = nested.channels := by
  have hchannels : nested.channels.Pairwise (· < ·) :=
    Std.ExtTreeMap.ordered_keys.imp Std.compare_eq_lt.1
  refine List.Pairwise.eq_of_mem_iff (CaptureStore.pairwise_channels store) hchannels ?_
  intro channel
  rw [CaptureStore.mem_channels, NestedStore.channels, Std.ExtTreeMap.mem_keys, h.split.mem_maps]

/-- What a store has of a channel is the map of the channel. -/
theorem entries_eq (channel : UInt8) :
    store.entries channel =
      (nested.maps.mapOf channel).toList.map fun entry => (⟨channel, entry.1⟩, entry.2) := by
  have hasymm : Std.Asymm fun a b : CaptureKey × α => a.1.time < b.1.time :=
    ⟨fun _ _ => UInt32.lt_asymm⟩
  have hentries := List.pairwise_map.1 (CaptureStore.pairwise_times store channel)
  refine List.Pairwise.eq_of_mem_iff hentries (List.pairwise_map.2 ?_) fun entry => ?_
  · exact Std.ExtTreeMap.ordered_keys_toList.imp Std.compare_eq_lt.1
  · obtain ⟨⟨other, time⟩, r⟩ := entry
    rw [CaptureStore.mem_entries, h.split.getElem?, List.mem_map, Prod.exists]
    simp only [Std.ExtTreeMap.mem_toList_iff_getElem?_eq_some, Prod.mk.injEq, CaptureKey.mk.injEq]
    constructor
    · rintro ⟨hr, rfl⟩
      exact ⟨time, r, hr, ⟨rfl, rfl⟩, rfl⟩
    · rintro ⟨_, _, hr, ⟨rfl, rfl⟩, rfl⟩
      exact ⟨hr, rfl⟩

theorem ofChannel_eq (channel : UInt8) : store.ofChannel channel = nested.ofChannel channel := by
  rw [CaptureStore.ofChannel, h.entries_eq, List.map_map, NestedStore.ofChannel,
    ChannelMaps.mapOf]
  cases nested.maps[channel]? with
  | none => simp
  | some captures => rfl

theorem times_eq (channel : UInt8) : store.times channel = nested.times channel := by
  rw [CaptureStore.times, h.entries_eq, List.map_map, NestedStore.times, ChannelMaps.mapOf]
  cases nested.maps[channel]? with
  | none => simp
  | some captures => exact Std.ExtTreeMap.map_fst_toList_eq_keys

theorem size_eq : store.size = nested.size := h.split.size_eq

/-- A channel that has a map has a capture. -/
theorem require_eq (channel : UInt8) : store.require channel = nested.require channel := by
  have hcaptures : store.ofChannel channel = nested.ofChannel channel := h.ofChannel_eq channel
  have hmem : channel ∈ store.channels ↔ channel ∈ nested.maps := by
    rw [h.channels_eq, NestedStore.channels, Std.ExtTreeMap.mem_keys]
  rw [Std.ExtTreeMap.mem_iff_isSome_getElem?] at hmem
  unfold NestedStore.require
  cases hmap : nested.maps[channel]? with
  | none => exact CaptureStore.require_eq_error.2 ⟨rfl, by simp [hmem, hmap]⟩
  | some captures =>
    rw [CaptureStore.require_eq_ok_of_mem (hmem.2 (by rw [hmap]; rfl)), hcaptures,
      NestedStore.ofChannel, hmap]

theorem envelope_eq [CaptureStore.HasSeries α] (channel : UInt8) (places : UInt32) :
    store.envelope channel places = nested.envelope channel places := by
  rw [CaptureStore.envelope, h.require_eq, NestedStore.envelope]

end Represents

theorem Represents.totals_eq {store : CaptureStore FecSummary} {nested : NestedStore FecSummary}
    (h : Represents store nested) (channel : UInt8) :
    store.totals channel = nested.totals channel := by
  rw [CaptureStore.totals, h.require_eq, NestedStore.totals]

/-! ## Runs -/

/-- Two offers end alike with the same captures and, if they are refused, with the same fault. -/
inductive EndAlike {α : Type} : EStateM.Result Fault (CaptureStore α) Unit →
    EStateM.Result Fault (NestedStore α) Unit → Prop
  | taken {store nested} (h : Represents store nested) : EndAlike (.ok () store) (.ok () nested)
  | refused {store nested} (fault : Fault) (h : Represents store nested) :
      EndAlike (.error fault store) (.error fault nested)

namespace NestedStore

variable {α : Type} [CaptureRecord α] {nested : NestedStore α} {r : α}

theorem submit_of_held (h : ∀ held, nested.mac = some held → held = CaptureRecord.mac r) :
    (submit r).run nested = .ok () ⟨some (CaptureRecord.mac r), nested.maps.file r⟩ := by
  obtain ⟨mac, maps⟩ := nested
  cases mac with
  | none => rfl
  | some held =>
    obtain rfl := h held rfl
    simp [submit, EStateM.run_bind]

theorem submit_of_other {held : MacAddress} (hstore : nested.mac = some held)
    (hother : held ≠ CaptureRecord.mac r) :
    (submit r).run nested = .error (.macMismatch held (CaptureRecord.mac r)) nested := by
  simp [submit, hstore, hother]

end NestedStore

theorem Represents.empty {α : Type} : Represents (CaptureStore.empty : CaptureStore α) .empty :=
  ⟨rfl, .empty⟩

namespace Represents

variable {α : Type} [CaptureRecord α] {store : CaptureStore α} {nested : NestedStore α}

theorem submit (h : Represents store nested) (r : α) :
    EndAlike ((CaptureStore.submit r).run store) ((NestedStore.submit r).run nested) := by
  rcases CaptureStore.submit_cases store r with ⟨hheld, hsubmit⟩ | ⟨held, hstore, hother, hsubmit⟩
  · rw [hsubmit, NestedStore.submit_of_held (h.mac ▸ hheld)]
    exact .taken ⟨rfl, h.split.file r⟩
  · rw [hsubmit, NestedStore.submit_of_other (h.mac ▸ hstore) hother]
    exact .refused _ h

theorem offer (h : Represents store nested) (r : α) :
    Represents (store.offer r) (nested.offer r) := by
  have hend := h.submit r
  unfold CaptureStore.offer NestedStore.offer
  generalize (CaptureStore.submit r).run store = ending at hend ⊢
  generalize (NestedStore.submit r).run nested = nestedEnding at hend ⊢
  cases hend with
  | taken hafter => exact hafter
  | refused fault hafter => exact hafter

theorem foldl_offer (h : Represents store nested) (offered : List α) :
    Represents (offered.foldl CaptureStore.offer store)
      (offered.foldl NestedStore.offer nested) := by
  induction offered generalizing store nested with
  | nil => exact h
  | cons r rest ih => exact ih (h.offer r)

theorem run (offered : List α) : Represents (CaptureStore.run offered) (NestedStore.run offered) :=
  empty.foldl_offer offered

end Represents

/-! ## Main result -/

/-- A store with one map answers as one with a map for every channel. -/
structure AnswersAlike {α : Type} [CaptureRecord α] (store : CaptureStore α)
    (nested : NestedStore α) : Prop where
  mac : store.mac = nested.mac
  channels : store.channels = nested.channels
  ofChannel : ∀ channel, store.ofChannel channel = nested.ofChannel channel
  times : ∀ channel, store.times channel = nested.times channel
  size : store.size = nested.size
  isEmpty : store.isEmpty = nested.isEmpty
  submit : ∀ r, EndAlike ((CaptureStore.submit r).run store) ((NestedStore.submit r).run nested)

/-- Whatever captures were offered, it makes no difference whether they are kept in one map. -/
theorem answers_alike_after_run :
    (∀ (α : Type) [CaptureRecord α] (offered : List α),
      AnswersAlike (CaptureStore.run offered) (NestedStore.run offered)) ∧
    (∀ (α : Type) [CaptureRecord α] [CaptureStore.HasSeries α] (offered : List α) channel places,
      (CaptureStore.run offered).envelope channel places =
        (NestedStore.run offered).envelope channel places) ∧
    ∀ (offered : List FecSummary) channel,
      (CaptureStore.run offered).totals channel = (NestedStore.run offered).totals channel := by
  refine ⟨fun α _ offered => ?_, fun α _ _ offered => (Represents.run offered).envelope_eq,
    fun offered => (Represents.run offered).totals_eq⟩
  have h : Represents (CaptureStore.run offered) (NestedStore.run offered) := .run offered
  exact {
    mac := h.mac
    channels := h.channels_eq
    ofChannel := h.ofChannel_eq
    times := h.times_eq
    size := h.size_eq
    isEmpty := by rw [CaptureStore.isEmpty, NestedStore.isEmpty, h.size_eq]
    submit := h.submit }

end CableCapture
