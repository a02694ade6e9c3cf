import CableCapture.CaptureStore
import CableCapture.Proofs.Answers
import CableCapture.Proofs.FirstOccurrences

/-!
# What stores answer

The queries of a store read one map in the order of its keys. So channels and times come out
ascending, and the questions that need a channel with captures fail for the others alone.
-/

namespace CableCapture

/-- Without repetitions, an ascending list is strictly ascending. -/
theorem pairwise_lt_eraseDups {l : List UInt8} (h : l.Pairwise (· ≤ ·)) :
    l.eraseDups.Pairwise (· < ·) := by
  have hle : l.eraseDups.Pairwise (· ≤ ·) := h.sublist (eraseDups_sublist l)
  exact (hle.and (nodup_eraseDups l)).imp fun hab => UInt8.lt_of_le_of_ne hab.1 hab.2

theorem CaptureKey.compare_eq_lt {a b : CaptureKey} :
    compare a b = .lt ↔ a.channel < b.channel ∨ a.channel = b.channel ∧ a.time < b.time := by
  have hcompare : compare a b = (compare a.channel b.channel).then (compare a.time b.time) := rfl
  rw [hcompare, Ordering.then_eq_lt, Std.compare_eq_lt, Std.compare_eq_lt,
    Std.LawfulEqOrd.compare_eq_iff_eq]

namespace CaptureStore

variable {α : Type} {store : CaptureStore α} {channel : UInt8}

/-! ## Channels -/

theorem pairwise_channels (store : CaptureStore α) : store.channels.Pairwise (· < ·) := by
  refine pairwise_lt_eraseDups (List.pairwise_map.2 ?_)
  refine (Std.ExtTreeMap.ordered_keys (t := store.captures)).imp fun {a b} hlt => ?_
  rcases CaptureKey.compare_eq_lt.1 hlt with hchannel | ⟨hchannel, -⟩
  · exact UInt8.le_of_lt hchannel
  · exact UInt8.le_of_eq hchannel

theorem mem_channels :
    channel ∈ store.channels ↔ ∃ key ∈ store.captures, key.channel = channel := by
  unfold channels
  rw [List.mem_eraseDups, List.mem_map]
  simp only [Std.ExtTreeMap.mem_keys]

/-! ## Captures of a channel -/

theorem mem_entries {key : CaptureKey} {r : α} :
    (key, r) ∈ store.entries channel ↔ store.captures[key]? = some r ∧ key.channel = channel := by
  unfold entries
  rw [List.mem_filter, Std.ExtTreeMap.mem_toList_iff_getElem?_eq_some, decide_eq_true_eq]

theorem pairwise_times (store : CaptureStore α) (channel : UInt8) :
    (store.times channel).Pairwise (· < ·) := by
  refine List.pairwise_map.2 ?_
  have hordered := (Std.ExtTreeMap.ordered_keys_toList (t := store.captures)).filter
    fun entry => entry.1.channel = channel
  refine hordered.imp_of_mem fun {a b} ha hb hlt => ?_
  obtain ⟨-, hsame⟩ := mem_entries.1 ha
  obtain ⟨-, hother⟩ := mem_entries.1 hb
  rcases CaptureKey.compare_eq_lt.1 hlt with hchannel | ⟨-, htime⟩
  · rw [hsame, hother] at hchannel
    exact absurd hchannel (UInt8.lt_irrefl channel)
  · exact htime

theorem ofChannel_eq_nil : store.ofChannel channel = [] ↔ channel ∉ store.channels := by
  unfold ofChannel
  rw [List.map_eq_nil_iff, List.eq_nil_iff_forall_not_mem, mem_channels, Prod.forall]
  simp only [mem_entries, not_and, not_exists]
  constructor
  · intro h key hmem hchannel
    exact h key store.captures[key] (Std.ExtTreeMap.getElem?_eq_some_getElem hmem) hchannel
  · intro h key r hr hchannel
    exact h key (Std.ExtTreeMap.mem_iff_isSome_getElem?.2 (by rw [hr]; rfl)) hchannel

/-- Every capture is filed under its own key. -/
def Keyed [CaptureRecord α] (store : CaptureStore α) : Prop :=
  ∀ key r, store.captures[key]? = some r → CaptureRecord.key r = key

section Keyed

variable [CaptureRecord α] (h : store.Keyed)
include h

theorem Keyed.mem_ofChannel {r : α} :
    r ∈ store.ofChannel channel ↔
      CaptureRecord.channel r = channel ∧ store.captures[CaptureRecord.key r]? = some r := by
  unfold ofChannel
  rw [List.mem_map, Prod.exists]
  constructor
  · rintro ⟨key, s, hentry, rfl⟩
    obtain ⟨hs, hchannel⟩ := mem_entries.1 hentry
    obtain rfl := h key s hs
    exact ⟨hchannel, hs⟩
  · rintro ⟨hchannel, hr⟩
    exact ⟨CaptureRecord.key r, r, mem_entries.2 ⟨hr, hchannel⟩, rfl⟩

/-- The times of a channel are those of its captures, one by one. -/
theorem Keyed.map_time_ofChannel :
    (store.ofChannel channel).map CaptureRecord.time = store.times channel := by
  unfold ofChannel times
  rw [List.map_map]
  refine List.map_congr_left fun entry hentry => ?_
  obtain ⟨hr, -⟩ := mem_entries.1 hentry
  exact congrArg CaptureKey.time (h entry.1 entry.2 hr)

end Keyed

/-! ## Questions that need a channel -/

theorem require_eq_error {fault : Fault} :
    store.require channel = .error fault ↔
      fault = .channelNotFound channel ∧ channel ∉ store.channels := by
  rw [← ofChannel_eq_nil]
  unfold require
  cases store.ofChannel channel with
  | nil => simp [eq_comm]
  | cons r rest => simp

theorem require_eq_ok_of_mem (h : channel ∈ store.channels) :
    store.require channel = .ok (store.ofChannel channel) := by
  unfold require
  cases hcaptures : store.ofChannel channel with
  | nil => exact absurd h (ofChannel_eq_nil.1 hcaptures)
  | cons r rest => rfl

/-- An envelope is refused for its series, never for a channel. -/
theorem compute_ne_channelNotFound {places : UInt32} {series : List (List Float)}
    {other : UInt8} :
    Envelope.compute channel places series ≠ .error (.channelNotFound other) := by
  unfold Envelope.compute Envelope.ofNumbers
  dsimp only
  split <;> simp

theorem envelope_eq_channelNotFound [HasSeries α] {places : UInt32} {other : UInt8} :
    store.envelope channel places = .error (.channelNotFound other) ↔
      other = channel ∧ channel ∉ store.channels := by
  unfold envelope
  by_cases h : channel ∈ store.channels
  · rw [require_eq_ok_of_mem h, ok_bind]
    simp [h, compute_ne_channelNotFound]
  · rw [require_eq_error.2 ⟨rfl, h⟩]
    simp [h, bind, Except.bind, eq_comm]

theorem totals_eq_error {store : CaptureStore FecSummary} {fault : Fault} :
    store.totals channel = .error fault ↔
      fault = .channelNotFound channel ∧ channel ∉ store.channels := by
  unfold totals
  by_cases h : channel ∈ store.channels
  · rw [require_eq_ok_of_mem h, ok_bind]
    simp [h, pure, Except.pure]
  · rw [require_eq_error.2 ⟨rfl, h⟩]
    simp [h, bind, Except.bind, eq_comm]

theorem exists_totals_eq_ok {store : CaptureStore FecSummary} :
    (∃ totals, store.totals channel = .ok totals) ↔ channel ∈ store.channels := by
  by_cases hchannel : channel ∈ store.channels
  · unfold totals
    rw [require_eq_ok_of_mem hchannel]
    exact iff_of_true ⟨_, rfl⟩ hchannel
  · rw [totals_eq_error.2 ⟨rfl, hchannel⟩]
    exact iff_of_false (fun ⟨_, htotals⟩ => nomatch htotals) hchannel

end CaptureStore

end CableCapture
