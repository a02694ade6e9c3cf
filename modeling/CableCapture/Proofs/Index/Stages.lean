import CableCapture.Proofs.Capture.Identity
import CableCapture.Proofs.Index.Invariant
import CableCapture.Proofs.StableSort

/-!
# What stages keep

Stages sort stably, and entries of one identity tie under every key they sort by. So the entries of
an identity keep their order, and every row of the summary stays what it is.
-/

namespace CableCapture

namespace CaptureIndex

variable {index : CaptureIndex} {identity : Identity}

/-- The entries of one identity in the order of the index. -/
def rivals (index : CaptureIndex) (identity : Identity) : List IndexEntry :=
  index.toList.filter fun e => e.identity = identity

theorem rivals_mapEntries {f : List IndexEntry → List IndexEntry}
    (hf : ∀ es, (f es).filter (fun e => e.identity = identity) =
      es.filter fun e => e.identity = identity) :
    (index.mapEntries f).rivals identity = index.rivals identity := by
  unfold rivals toList mapEntries
  simp only [List.flatMap_map, List.filter_flatMap, hf]

/-- Only the group of its device holds entries of an identity. -/
theorem WellFormed.rivals_eq (h : index.WellFormed) :
    index.rivals identity =
      (index.devices.filter fun device => device.mac = identity.mac).flatMap fun device =>
        device.entries.filter fun e => e.identity = identity := by
  unfold rivals
  rw [toList_eq_entries, List.filter_flatMap]
  have hdevices := h.devices
  generalize index.devices = devices at hdevices
  induction devices with
  | nil => rfl
  | cons device rest ih =>
    obtain ⟨hdevice, hrest⟩ := List.forall_mem_cons.1 hdevices
    rw [List.flatMap_cons, ih hrest, List.filter_cons]
    by_cases hmac : device.mac = identity.mac
    · simp [hmac]
    · have hnone : device.entries.filter (fun e => e.identity = identity) = [] := by
        apply List.filter_eq_nil_iff.2
        intro e he heq
        have hidentity : e.identity = identity := of_decide_eq_true heq
        exact hmac (by rw [← hdevice.mac_of_mem he, ← hidentity]; rfl)
      simp [hmac, hnone]

theorem WellFormed.rivals_applyStage (h : index.WellFormed) (stage : Stage) :
    (index.applyStage stage).rivals identity = index.rivals identity := by
  have hties : ∀ {κ : Type} (key : Identity → κ) (a b : IndexEntry),
      decide (a.identity = identity) → decide (b.identity = identity) →
        key a.identity = key b.identity := by
    intro κ key a b ha hb
    rw [of_decide_eq_true ha, of_decide_eq_true hb]
  cases hstage : stage with
  | groupByChannel => rfl
  | sortByCaptureTime => exact rivals_mapEntries (filter_mergeSort (hties Identity.captureTime))
  | sortByKind => exact rivals_mapEntries (filter_mergeSort (hties fun i => i.kind.rank))
  | sortByMac =>
    have hsorted := hstage ▸ h.applyStage stage
    rw [hsorted.rivals_eq, h.rivals_eq]
    congr 1
    refine filter_mergeSort ?_ index.devices
    intro a b ha hb
    rw [of_decide_eq_true ha, of_decide_eq_true hb]

/-- No list of stages changes the order of entries that have one identity. -/
theorem WellFormed.rivals_applyStages (h : index.WellFormed) (stages : List Stage) :
    (index.applyStages stages).rivals identity = index.rivals identity := by
  induction stages generalizing index with
  | nil => rfl
  | cons stage rest ih => exact (ih (h.applyStage stage)).trans (h.rivals_applyStage stage)

/-! ## Rows of the summary -/

instance : Std.LawfulOrderMax UInt32 where
  max_eq_or a b := by
    change (if a ≤ b then b else a) = a ∨ (if a ≤ b then b else a) = b
    split
    · exact .inr rfl
    · exact .inl rfl
  max_le_iff a b c := by
    change (if a ≤ b then b else a) ≤ c ↔ a ≤ c ∧ b ≤ c
    split <;> simp only [UInt32.le_iff_toNat_le] at * <;> omega

theorem SummaryRow.ofGroup_reorder [Calendar] (mac : MacAddress) (g : ChannelGroup)
    {es : List IndexEntry} (hes : es.Perm g.entries) : ofGroup mac { g with entries := es } = ofGroup mac g := by
  have hany : ∀ kind, (es.any fun e => e.kind = kind) = g.entries.any fun e => e.kind = kind := by
    intro kind
    rw [Bool.eq_iff_iff, List.any_eq_true, List.any_eq_true]
    simp only [hes.mem_iff]
  have htimes := hes.map IndexEntry.time
  have hmin : (es.map IndexEntry.time).min? = (g.entries.map IndexEntry.time).min? := by
    apply Option.ext
    intro time
    rw [List.min?_eq_some_iff, List.min?_eq_some_iff]
    simp only [htimes.mem_iff]
  have hmax : (es.map IndexEntry.time).max? = (g.entries.map IndexEntry.time).max? := by
    apply Option.ext
    intro time
    rw [List.max?_eq_some_iff, List.max?_eq_some_iff]
    simp only [htimes.mem_iff]
  unfold ofGroup
  simp only [hany, hmin, hmax, hes.length_eq]

theorem summary_mapEntries [Calendar] {f : List IndexEntry → List IndexEntry}
    (hf : ∀ es, (f es).Perm es) :
    (index.mapEntries f).summary = index.summary := by
  unfold summary mapEntries
  rw [List.flatMap_map]
  refine List.flatMap_congr fun device _ => ?_
  rw [List.map_map]
  exact List.map_congr_left fun g _ => SummaryRow.ofGroup_reorder device.mac g (hf g.entries)

theorem summary_applyStage_perm [Calendar] (stage : Stage) :
    (index.applyStage stage).summary.Perm index.summary := by
  cases stage with
  | groupByChannel => exact .refl _
  | sortByCaptureTime => exact .of_eq (summary_mapEntries fun es => List.mergeSort_perm es _)
  | sortByKind => exact .of_eq (summary_mapEntries fun es => List.mergeSort_perm es _)
  | sortByMac => exact (List.mergeSort_perm index.devices _).flatMap_right _

theorem summary_applyStages_perm [Calendar] (stages : List Stage) :
    (index.applyStages stages).summary.Perm index.summary := by
  induction stages generalizing index with
  | nil => exact .refl _
  | cons stage rest ih => exact ih.trans (summary_applyStage_perm stage)

/-! ## Indexes of files -/

/-- The entries of the files that have one. -/
def accepted (files : List (String × List UInt8)) : List IndexEntry :=
  files.filterMap fun (name, bytes) => (IndexEntry.ofFile name bytes).toOption

/-- The entries with a property are those of the files whose entries have it. -/
theorem filter_accepted (p : IndexEntry → Bool) (files : List (String × List UInt8)) :
    (accepted files).filter p =
      accepted (files.filter fun (name, bytes) =>
        (IndexEntry.ofFile name bytes).toOption.any p) := by
  unfold accepted
  rw [List.filter_filterMap, List.filterMap_filter]
  congr 1
  funext ⟨name, bytes⟩
  obtain ⟨found, hentry⟩ : ∃ found, (IndexEntry.ofFile name bytes).toOption = found := ⟨_, rfl⟩
  simp only [hentry]
  cases found with
  | none => simp
  | some e => simp [Option.filter_some]

theorem WellFormed.ofFiles (files : List (String × List UInt8)) : (ofFiles files).WellFormed :=
  .ofEntries _

theorem filed_of_mem_ofFiles {files : List (String × List UInt8)} {e : IndexEntry}
    (he : e ∈ (ofFiles files).toList) : e.Filed := by
  obtain ⟨⟨name, bytes⟩, -, hentry⟩ := List.mem_filterMap.1 ((toList_ofEntries_perm _).mem_iff.1 he)
  exact IndexEntry.filed_of_ofFile (toOption_eq_some.1 hentry)

end CaptureIndex

end CableCapture
