import CableCapture.Libraries
import CableCapture.Proofs.Index.Rebuild
import CableCapture.Proofs.Report.Isolation

/-!
# Reports and the order of files

Files compete for a place only with files of their own identity. Batches that agree on the order of
those may bring devices, channels and entries up in any order: their indexes fill the same stores and
have the same rows.
-/

namespace CableCapture

/-! ## Lists that agree class by class -/

/-- Lists whose members of each key are the same are rearrangements of each other. -/
theorem perm_of_filter_eq {α κ : Type} [DecidableEq α] [DecidableEq κ] {key : α → κ} {l l' : List α}
    (h : ∀ k, l.filter (fun a => key a = k) = l'.filter fun a => key a = k) : l.Perm l' := by
  rw [List.perm_iff_count]
  intro a
  have hclass : ∀ l : List α, (l.filter fun b => key b = key a).count a = l.count a := fun l =>
    List.count_filter (by simp)
  rw [← hclass l, ← hclass l', h]

namespace CaptureIndex

variable {index other : CaptureIndex}

/-! ## Rows -/

theorem WellFormed.summary_eq [Calendar] (h : index.WellFormed) :
    index.summary = index.macs.flatMap fun mac => (index.channels mac).map fun channel =>
      .ofGroup mac ⟨channel, index.entries mac channel⟩ := by
  unfold summary
  rw [h.devices_eq, List.flatMap_map]
  simp only [List.map_map, Function.comp_def]

/-- Rows know the entries of their channels up to order. -/
theorem summary_perm_of_firstSeen [Calendar] {es es' : List IndexEntry} (hwf : index.WellFormed)
    (hotherWf : other.WellFormed) (h : index.FirstSeen es) (hother : other.FirstSeen es')
    (hes : es.Perm es') : index.summary.Perm other.summary := by
  rw [hwf.summary_eq, hotherWf.summary_eq, h.macs, hother.macs]
  refine (perm_eraseDups (hes.map _)).flatMap fun mac _ => ?_
  have hrow : ∀ channel,
      SummaryRow.ofGroup mac ⟨channel, index.entries mac channel⟩ =
        .ofGroup mac ⟨channel, other.entries mac channel⟩ := by
    intro channel
    apply SummaryRow.ofGroup_reorder mac ⟨channel, other.entries mac channel⟩
    rw [h.entries, hother.entries]
    exact hes.filter _
  simp only [hrow]
  apply List.Perm.map
  rw [h.channels, hother.channels]
  exact perm_eraseDups ((hes.filter _).map _)

/-! ## Files of one identity -/

/-- The files that are identified in this way. -/
def filesAs (identity : Identity) (files : List (String × List UInt8)) :
    List (String × List UInt8) :=
  files.filter fun (name, bytes) =>
    (IndexEntry.ofFile name bytes).toOption.any fun e => e.identity = identity

theorem filter_identity_accepted (identity : Identity) (files : List (String × List UInt8)) :
    (accepted files).filter (fun e => e.identity = identity) = accepted (filesAs identity files) :=
  filter_accepted _ files

/-- Rivals stand in one channel, and there in the order of their files. -/
theorem rivals_ofFiles (files : List (String × List UInt8)) (identity : Identity) :
    (ofFiles files).rivals identity = accepted (filesAs identity files) := by
  have hchannel : ∀ es : List IndexEntry, es.filter (fun e => e.identity = identity) =
      (es.filter fun e => e.mac = identity.mac ∧ e.channel = identity.channel).filter
        fun e => e.identity = identity := by
    intro es
    rw [List.filter_filter]
    refine List.filter_congr fun e _ => ?_
    by_cases h : e.identity = identity
    · simp [h, IndexEntry.mac, IndexEntry.channel]
    · simp [h]
  unfold rivals
  rw [hchannel, (WellFormed.ofFiles files).filter_toList, (firstSeen_ofFiles files).entries,
    ← hchannel, filter_identity_accepted]

/-- Both batches hold the same files of every identity in the same order. -/
def SameRivals (files others : List (String × List UInt8)) : Prop :=
  ∀ identity, filesAs identity files = filesAs identity others

theorem filesAs_eq_nil {identity : Identity} {files : List (String × List UInt8)}
    (h : ∀ e ∈ accepted files, e.identity ≠ identity) : filesAs identity files = [] := by
  apply List.filter_eq_nil_iff.2
  rintro ⟨name, bytes⟩ hfile hany
  obtain ⟨e, he, hidentity⟩ := (Option.any_eq_true _ _).1 hany
  exact h e (List.mem_filterMap.2 ⟨_, hfile, he⟩) (of_decide_eq_true hidentity)

/-- It is enough to look at the identities that there are. -/
theorem sameRivals_iff {files others : List (String × List UInt8)} :
    SameRivals files others ↔ ∀ e ∈ accepted files ++ accepted others,
      filesAs e.identity files = filesAs e.identity others := by
  refine ⟨fun h e _ => h e.identity, fun h identity => ?_⟩
  by_cases hfound : ∃ e ∈ accepted files ++ accepted others, e.identity = identity
  · obtain ⟨e, he, rfl⟩ := hfound
    exact h e he
  · have hnone : ∀ e ∈ accepted files ++ accepted others, e.identity ≠ identity :=
      fun e he heq => hfound ⟨e, he, heq⟩
    obtain ⟨hfiles, hothers⟩ := List.forall_mem_append.1 hnone
    rw [filesAs_eq_nil hfiles, filesAs_eq_nil hothers]

instance (files others : List (String × List UInt8)) : Decidable (SameRivals files others) :=
  decidable_of_iff _ sameRivals_iff.symm

theorem SameRivals.accepted_perm {files others : List (String × List UInt8)}
    (h : SameRivals files others) : (accepted files).Perm (accepted others) := by
  have hidentities : ∀ identity : Identity,
      (accepted files).filter (fun e => e.identity = identity) =
        (accepted others).filter fun e => e.identity = identity := by
    intro identity
    rw [filter_identity_accepted, filter_identity_accepted, h identity]
  exact perm_of_filter_eq hidentities

theorem SameRivals.summary_perm [Calendar] {files others : List (String × List UInt8)}
    (h : SameRivals files others) : (ofFiles files).summary.Perm (ofFiles others).summary :=
  summary_perm_of_firstSeen (.ofFiles files) (.ofFiles others) (firstSeen_ofFiles files)
    (firstSeen_ofFiles others) h.accepted_perm

theorem SameRivals.size_eq {files others : List (String × List UInt8)}
    (h : SameRivals files others) : (ofFiles files).size = (ofFiles others).size :=
  ((toList_ofEntries_perm _).trans
    (h.accepted_perm.trans (toList_ofEntries_perm _).symm)).length_eq

end CaptureIndex

/-! ## Main result -/

open CaptureIndex (SameRivals)

theorem Fleets.ofIndex_eq_of_sameRivals {files others : List (String × List UInt8)}
    (h : SameRivals files others) : ofIndex (.ofFiles files) = ofIndex (.ofFiles others) := by
  refine ofIndex_eq_of_rivals (fun _ => CaptureIndex.filed_of_mem_ofFiles)
    (fun _ => CaptureIndex.filed_of_mem_ofFiles) fun identity => ?_
  rw [CaptureIndex.rivals_ofFiles, CaptureIndex.rivals_ofFiles, h identity]

/-- A batch may be rearranged, as long as the files of one identity keep their order, and files that
are not identified may come and go: the counts, the levels and the counters of the report stay the
same, and its channels have the same rows in some order. The stages need not be the same either. -/
theorem report_of_rearranged_files [Calendar] {files others : List (String × List UInt8)}
    (h : SameRivals files others) (stages otherStages : List CaptureIndex.Stage) (places : UInt32) :
    let report := Report.ofIndex ((CaptureIndex.ofFiles files).applyStages stages) places
    let other := Report.ofIndex ((CaptureIndex.ofFiles others).applyStages otherStages) places
    report.captureCount = other.captureCount ∧ report.rxMer = other.rxMer ∧
      report.fec = other.fec ∧ report.channels.Perm other.channels := by
  intro report other
  have hfleets : Fleets.ofIndex ((CaptureIndex.ofFiles files).applyStages stages) =
      Fleets.ofIndex ((CaptureIndex.ofFiles others).applyStages otherStages) := by
    rw [Fleets.ofIndex_applyStages, Fleets.ofIndex_applyStages, Fleets.ofIndex_eq_of_sameRivals h]
  refine ⟨?_, ?_, ?_, ?_⟩
  · calc report.captureCount
      _ = (CaptureIndex.ofFiles files).size :=
        (CaptureIndex.toList_applyStages_perm stages).length_eq
      _ = (CaptureIndex.ofFiles others).size := h.size_eq
      _ = other.captureCount := (CaptureIndex.toList_applyStages_perm otherStages).length_eq.symm
  · exact congrArg (fun fleets => Report.envelopes fleets.rxMer places) hfleets
  · exact congrArg (fun fleets => Report.fecRows fleets.fec) hfleets
  · exact (CaptureIndex.summary_applyStages_perm stages).trans
      (h.summary_perm.trans (CaptureIndex.summary_applyStages_perm otherStages).symm)

/-- The crowded files with those of the first device in front and the cut one at the end. -/
def rearrangedFiles : List (String × List UInt8) :=
  [("early.bin", emptySummaryFile 1 2), ("late.bin", emptySummaryFile 1 3),
    ("other.bin", emptySummaryFile 2 2), ("last.bin", emptySummaryFile 2 3), ("cut.bin", [0x50, 0x4E])]

theorem rearranged_files_report_the_same :
    let report := Report.ofIndex ((CaptureIndex.ofFiles crowdedFiles).applyStages []) 2
    let other := Report.ofIndex ((CaptureIndex.ofFiles rearrangedFiles).applyStages []) 2
    SameRivals crowdedFiles rearrangedFiles ∧
      (CaptureIndex.ofFiles crowdedFiles).macs ≠ (CaptureIndex.ofFiles rearrangedFiles).macs ∧
      report.captureCount = other.captureCount ∧ report.rxMer = other.rxMer ∧
      report.fec = other.fec ∧ report.channels.Perm other.channels := by
  have hrivals : SameRivals crowdedFiles rearrangedFiles := by decide +kernel
  exact ⟨hrivals, by decide +kernel, report_of_rearranged_files hrivals [] [] 2⟩

end CableCapture
