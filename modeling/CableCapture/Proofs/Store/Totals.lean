import CableCapture.Proofs.Record.Counters
import CableCapture.Proofs.Store.Runs

/-!
# Totals of a channel

A store adds up the totals of a channel's summaries. That is what one summary of all their profiles
would be added up to, so it does not show how the sets came in.
-/

namespace CableCapture

namespace CaptureStore

open FecTotals

/-- The profiles of a channel's summaries, one summary after another. -/
def profiles (store : CaptureStore FecSummary) (channel : UInt8) : List FecProfile :=
  (store.ofChannel channel).flatMap FecSummary.profiles

theorem totals_eq_ofProfiles {store : CaptureStore FecSummary} {channel : UInt8}
    (h : channel ∈ store.channels) :
    store.totals channel = .ok (ofProfiles (store.profiles channel)) := by
  rw [totals, require_eq_ok_of_mem h, ok_bind, foldl_merge]
  rfl

/-- The totals of a summary and those of a channel account for every set. A channel has the totals of
any summary that has the profiles of the channel's summaries, in whatever order these and their sets
are. -/
theorem totals_account_for_every_set :
    (∀ r : FecSummary, Tally r.totals r.profiles) ∧
    ∀ (offered : List FecSummary), ∀ channel ∈ (run offered).channels,
      ∃ totals, (run offered).totals channel = .ok totals ∧
        Tally totals ((run offered).profiles channel) ∧
        (∀ r : FecSummary, r.profiles = (run offered).profiles channel → r.totals = totals) ∧
        ∀ r : FecSummary, Reordered ((run offered).profiles channel) r.profiles →
          r.totals = totals := by
  refine ⟨fun r => tally_ofProfiles r.profiles, ?_⟩
  intro offered channel hchannel
  refine ⟨_, totals_eq_ofProfiles hchannel, tally_ofProfiles _, ?_, ?_⟩
  · intro r hr
    rw [FecSummary.totals, hr]
  · intro r hr
    exact hr.ofProfiles_eq.symm

/-- A summary of channel 3 with this time and these profiles. -/
def timedSummary (time : UInt32) (profiles : List FecProfile) : FecSummary :=
  { bareSummary 1 with
    preamble := { (bareSummary 1).preamble with captureTime := time }
    profiles := profiles }

/-- Two summaries. Profile 4 occurs twice in the first one and again in the second, and profile 0
has no sets. -/
def repeatedProfiles : List FecSummary :=
  [timedSummary 1 [⟨4, [⟨0, 100, 2, 1⟩]⟩, ⟨0, []⟩, ⟨4, [⟨0, 30, 0, 0⟩, ⟨600, 5, 1, 0⟩]⟩],
    timedSummary 2 [⟨4, [⟨0, 300, 7, 3⟩]⟩]]

theorem totals_of_repeatedProfiles :
    ∃ totals, (run repeatedProfiles).totals 3 = .ok totals ∧
      0 ∈ totals.toList.map Prod.fst ∧
      ∃ counts, (4, counts) ∈ totals.toList ∧ counts.total.toNat = 435 ∧
        counts.corrected.toNat = 10 ∧ counts.uncorrectable.toNat = 4 := by
  have hprofiles : (run repeatedProfiles).profiles 3 =
      repeatedProfiles.flatMap FecSummary.profiles := by decide +kernel
  have hchannel : 3 ∈ (run repeatedProfiles).channels := by decide +kernel
  obtain ⟨totals, htotals, htally, -, -⟩ :=
    totals_account_for_every_set.2 repeatedProfiles 3 hchannel
  rw [hprofiles] at htally
  have hfour : 4 ∈ totals.toList.map Prod.fst := (htally.listed 4).2 (by decide)
  obtain ⟨⟨_, counts⟩, hcounts, rfl⟩ := List.mem_map.1 hfour
  exact ⟨totals, htotals, (htally.listed 0).2 (by decide), counts, hcounts,
    htally.counted 4 counts .total hcounts (by decide),
    htally.counted 4 counts .corrected hcounts (by decide),
    htally.counted 4 counts .uncorrectable hcounts (by decide)⟩

end CaptureStore

end CableCapture
