import CableCapture.Proofs.Report.Fleet

/-!
# Stages and reports

Stages reorder what a report lists and change nothing of what it adds up.
-/

namespace CableCapture

/-- Whatever the stages, the fleets stay the same, the winner of every place among them, and a report
differs at most in the order of its channels. -/
theorem report_applyStages [Calendar] (files : List (String × List UInt8))
    (stages : List CaptureIndex.Stage) (places : UInt32) :
    let index := CaptureIndex.ofFiles files
    let staged := index.applyStages stages
    Fleets.ofIndex staged = Fleets.ofIndex index ∧
      (∀ identity, staged.rivals identity = index.rivals identity) ∧
      (Report.ofIndex staged places).captureCount = (Report.ofIndex index places).captureCount ∧
      (Report.ofIndex staged places).rxMer = (Report.ofIndex index places).rxMer ∧
      (Report.ofIndex staged places).fec = (Report.ofIndex index places).fec ∧
      (Report.ofIndex staged places).channels.Perm (Report.ofIndex index places).channels := by
  intro index staged
  have hperm : staged.toList.Perm index.toList := CaptureIndex.toList_applyStages_perm stages
  have hfiled : ∀ e ∈ index.toList, e.Filed := fun e => CaptureIndex.filed_of_mem_ofFiles
  have hstaged : ∀ e ∈ staged.toList, e.Filed := fun e he => hfiled e (hperm.mem_iff.1 he)
  have hrivals : ∀ identity, staged.rivals identity = index.rivals identity := fun identity =>
    (CaptureIndex.WellFormed.ofFiles files).rivals_applyStages stages
  have hfleets : Fleets.ofIndex staged = Fleets.ofIndex index :=
    Fleets.ofIndex_eq_of_rivals hstaged hfiled hrivals
  refine ⟨hfleets, hrivals, hperm.length_eq, ?_, ?_, CaptureIndex.summary_applyStages_perm stages⟩
  · unfold Report.ofIndex
    rw [hfleets]
  · unfold Report.ofIndex
    rw [hfleets]

end CableCapture
