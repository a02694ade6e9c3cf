import CableCapture.Proofs.Index.Stages
import CableCapture.Proofs.Text.Addresses
import Mathlib.Data.List.Dedup

/-!
# Normal forms of stages

Of a list of stages only the last occurrence of each one counts. The stages that sort entries count in
their order, the one that sorts devices counts wherever it stands, and grouping by channel never does.
-/

namespace CableCapture

namespace CaptureIndex

namespace Stage

/-- The number by which a stage sorts entries. A stage that leaves channels alone tells none apart. -/
def key : Stage → IndexEntry → Nat
  | sortByCaptureTime, e => e.time.toNat
  | sortByKind, e => e.kind.rank
  | groupByChannel, _ => 0
  | sortByMac, _ => 0

def sortsEntries : Stage → Bool
  | sortByCaptureTime => true
  | sortByKind => true
  | groupByChannel => false
  | sortByMac => false

/-- The stages that sort entries, each where it occurs last. -/
def entrySorts (stages : List Stage) : List Stage :=
  (stages.filter sortsEntries).dedup

/-- What entries are ordered by in the end: first by the key of the last stage. -/
def sortKeys (stages : List Stage) : List (IndexEntry → Nat) :=
  (entrySorts stages).reverse.map key

/-- The fewest stages that do the same, those that sort entries in front. -/
def normalForm (stages : List Stage) : List Stage :=
  entrySorts stages ++ if sortByMac ∈ stages then [sortByMac] else []

/-- One stage on the entries of a channel. -/
def sort (stage : Stage) (es : List IndexEntry) : List IndexEntry :=
  es.mergeSort fun a b => stage.key a ≤ stage.key b

/-- Several stages, one after another. -/
def sortAll (stages : List Stage) (es : List IndexEntry) : List IndexEntry :=
  stages.foldl (fun es stage => stage.sort es) es

variable {stage : Stage} {stages : List Stage}

theorem eq_of_not_sortsEntries (h : ¬stage.sortsEntries) :
    stage = groupByChannel ∨ stage = sortByMac := by
  cases stage with
  | groupByChannel => exact .inl rfl
  | sortByCaptureTime => exact absurd rfl h
  | sortByKind => exact absurd rfl h
  | sortByMac => exact .inr rfl

/-! ## The entries of one channel -/

theorem stablySorted_sortAll {keys : List (IndexEntry → Nat)} {es original : List IndexEntry}
    (h : StablySorted keys es original) (stages : List Stage) :
    StablySorted (stages.reverse.map key ++ keys) (sortAll stages es) original := by
  induction stages generalizing es keys with
  | nil => exact h
  | cons stage rest ih =>
    rw [List.reverse_cons, List.map_append, List.append_assoc]
    exact ih (h.mergeSort stage.key)

/-- A stage does nothing if it comes again later on. -/
theorem sortAll_cons_of_mem (h : stage ∈ stages) (es : List IndexEntry) :
    sortAll (stage :: stages) es = sortAll stages es := by
  have hkey : stage.key ∈ stages.reverse.map key ++ [] := by
    rw [List.append_nil]
    exact List.mem_map_of_mem (List.mem_reverse.2 h)
  have hfirst := stablySorted_sortAll (.refl (stage.sort es)) stages
  exact (hfirst.of_mergeSort hkey).unique (stablySorted_sortAll (.refl es) stages)

theorem sortAll_dedup (stages : List Stage) (es : List IndexEntry) :
    sortAll stages.dedup es = sortAll stages es := by
  induction stages generalizing es with
  | nil => rfl
  | cons stage rest ih =>
    by_cases h : stage ∈ rest
    · rw [List.dedup_cons_of_mem h, ih, sortAll_cons_of_mem h]
    · rw [List.dedup_cons_of_notMem h]
      exact ih (stage.sort es)

theorem stablySorted_entrySorts (stages : List Stage) (es : List IndexEntry) :
    StablySorted (sortKeys stages) (sortAll (entrySorts stages) es) es := by
  have h := stablySorted_sortAll (.refl es) (entrySorts stages)
  rwa [List.append_nil] at h

end Stage

/-! ## All channels -/

variable {stage : Stage} {stages : List Stage}

theorem mapEntries_id (index : CaptureIndex) : index.mapEntries (fun es => es) = index := by
  simp [mapEntries]

theorem mapEntries_mapEntries (f g : List IndexEntry → List IndexEntry) (index : CaptureIndex) :
    (index.mapEntries f).mapEntries g = index.mapEntries fun es => g (f es) := by
  simp [mapEntries, Function.comp_def]

theorem applyStage_of_sortsEntries (h : stage.sortsEntries) (index : CaptureIndex) :
    index.applyStage stage = index.mapEntries stage.sort := by
  cases stage with
  | groupByChannel => cases h
  | sortByCaptureTime =>
    simp only [applyStage, UInt32.le_iff_toNat_le]
    rfl
  | sortByKind => rfl
  | sortByMac => cases h

theorem applyStages_of_sortsEntries (h : ∀ stage ∈ stages, stage.sortsEntries)
    (index : CaptureIndex) : index.applyStages stages = index.mapEntries (Stage.sortAll stages) := by
  induction stages generalizing index with
  | nil => exact (mapEntries_id index).symm
  | cons stage rest ih =>
    obtain ⟨hstage, hrest⟩ := List.forall_mem_cons.1 h
    calc index.applyStages (stage :: rest)
      _ = (index.applyStage stage).applyStages rest := rfl
      _ = (index.mapEntries stage.sort).mapEntries (Stage.sortAll rest) := by
        rw [ih hrest, applyStage_of_sortsEntries hstage]
      _ = index.mapEntries (Stage.sortAll (stage :: rest)) := mapEntries_mapEntries _ _ index

/-! ## Devices -/

theorem sortByMac_mapEntries (f : List IndexEntry → List IndexEntry) (index : CaptureIndex) :
    (index.mapEntries f).applyStage .sortByMac = (index.applyStage .sortByMac).mapEntries f := by
  refine congrArg mk (Eq.symm ?_)
  exact List.map_mergeSort fun _ _ _ _ => rfl

/-- Sorting the devices may as well come after any other stage. -/
theorem applyStage_sortByMac_comm (stage : Stage) (index : CaptureIndex) :
    (index.applyStage .sortByMac).applyStage stage =
      (index.applyStage stage).applyStage .sortByMac := by
  by_cases hsorts : stage.sortsEntries
  · rw [applyStage_of_sortsEntries hsorts, applyStage_of_sortsEntries hsorts, sortByMac_mapEntries]
  · rcases Stage.eq_of_not_sortsEntries hsorts with rfl | rfl
    · rfl
    · rfl

theorem applyStages_sortByMac_comm (stages : List Stage) (index : CaptureIndex) :
    (index.applyStage .sortByMac).applyStages stages =
      (index.applyStages stages).applyStage .sortByMac := by
  induction stages generalizing index with
  | nil => rfl
  | cons stage rest ih =>
    calc (index.applyStage .sortByMac).applyStages (stage :: rest)
      _ = ((index.applyStage .sortByMac).applyStage stage).applyStages rest := rfl
      _ = ((index.applyStage stage).applyStage .sortByMac).applyStages rest := by
        rw [applyStage_sortByMac_comm]
      _ = (index.applyStages (stage :: rest)).applyStage .sortByMac := ih (index.applyStage stage)

theorem pairwise_sortByMac (index : CaptureIndex) :
    (index.applyStage .sortByMac).devices.Pairwise fun a b => a.mac.octets ≤ b.mac.octets := by
  have hsorted := pairwise_mergeSort_key (fun device : DeviceGroup => device.mac.display)
    index.devices
  exact hsorted.imp MacAddress.display_le_iff.1

theorem sortByMac_idem (index : CaptureIndex) :
    (index.applyStage .sortByMac).applyStage .sortByMac = index.applyStage .sortByMac := by
  have hsorted := pairwise_mergeSort_key (fun device : DeviceGroup => device.mac.display)
    index.devices
  unfold applyStage
  rw [List.mergeSort_of_pairwise (hsorted.imp fun h => decide_eq_true h)]

/-! ## Lists of stages -/

/-- The stages that sort entries may all come before a single one that sorts the devices. -/
theorem applyStages_eq (stages : List Stage) (index : CaptureIndex) :
    index.applyStages stages =
      (index.applyStages (stages.filter Stage.sortsEntries)).applyStages
        (if .sortByMac ∈ stages then [.sortByMac] else []) := by
  induction stages generalizing index with
  | nil => rfl
  | cons stage rest ih =>
    by_cases hmac : stage = .sortByMac
    · subst hmac
      rw [List.filter_cons_of_neg Bool.false_ne_true, if_pos List.mem_cons_self]
      calc index.applyStages (.sortByMac :: rest)
        _ = (index.applyStages rest).applyStage .sortByMac := applyStages_sortByMac_comm rest index
        _ = (index.applyStages (rest.filter Stage.sortsEntries)).applyStages [.sortByMac] := by
          rw [ih]
          split
          · exact sortByMac_idem _
          · rfl
    · have hrest : .sortByMac ∈ stage :: rest ↔ .sortByMac ∈ rest := by
        rw [List.mem_cons, or_iff_right (Ne.symm hmac)]
      simp only [hrest]
      by_cases hsorts : stage.sortsEntries
      · rw [List.filter_cons_of_pos hsorts]
        exact ih (index.applyStage stage)
      · obtain rfl := (Stage.eq_of_not_sortsEntries hsorts).resolve_right hmac
        rw [List.filter_cons_of_neg hsorts]
        exact ih index

theorem applyStages_append (first second : List Stage) (index : CaptureIndex) :
    index.applyStages (first ++ second) = (index.applyStages first).applyStages second :=
  List.foldl_append

theorem applyStages_entrySorts (stages : List Stage) (index : CaptureIndex) :
    index.applyStages (Stage.entrySorts stages) =
      index.mapEntries (Stage.sortAll (Stage.entrySorts stages)) := by
  apply applyStages_of_sortsEntries
  intro stage hstage
  exact (List.mem_filter.1 (List.mem_dedup.1 hstage)).2

theorem applyStages_filter (stages : List Stage) (index : CaptureIndex) :
    index.applyStages (stages.filter Stage.sortsEntries) =
      index.applyStages (Stage.entrySorts stages) := by
  have hsame : Stage.sortAll (stages.filter Stage.sortsEntries) =
      Stage.sortAll (Stage.entrySorts stages) :=
    funext fun es => (Stage.sortAll_dedup _ es).symm
  rw [applyStages_entrySorts, applyStages_of_sortsEntries, hsame]
  exact fun stage hstage => (List.mem_filter.1 hstage).2

theorem applyStages_eq_normalForm (stages : List Stage) (index : CaptureIndex) :
    index.applyStages stages = index.applyStages (Stage.normalForm stages) := by
  rw [applyStages_eq, applyStages_filter, Stage.normalForm, applyStages_append]

/-- The devices may be sorted first and the entries of every channel afterwards. -/
theorem exists_arrangement (stages : List Stage) (index : CaptureIndex) :
    ∃ devices, index.applyStages stages =
        mapEntries (Stage.sortAll (Stage.entrySorts stages)) ⟨devices⟩ ∧
      devices.Perm index.devices ∧
      if .sortByMac ∈ stages then devices.Pairwise fun a b => a.mac.octets ≤ b.mac.octets
      else devices = index.devices := by
  rw [applyStages_eq, applyStages_filter, applyStages_entrySorts]
  by_cases hmac : .sortByMac ∈ stages
  · simp only [if_pos hmac]
    refine ⟨(index.applyStage .sortByMac).devices, ?_, List.mergeSort_perm _ _,
      pairwise_sortByMac index⟩
    exact sortByMac_mapEntries _ index
  · simp only [if_neg hmac]
    exact ⟨index.devices, rfl, .refl _, rfl⟩

theorem applyStage_idem (stage : Stage) (index : CaptureIndex) :
    (index.applyStage stage).applyStage stage = index.applyStage stage := by
  by_cases hsorts : stage.sortsEntries
  · have htwice : ∀ es, stage.sort (stage.sort es) = stage.sort es :=
      Stage.sortAll_cons_of_mem (List.mem_singleton_self stage)
    rw [applyStage_of_sortsEntries hsorts, applyStage_of_sortsEntries hsorts,
      mapEntries_mapEntries, funext htwice]
  · rcases Stage.eq_of_not_sortsEntries hsorts with rfl | rfl
    · rfl
    · exact sortByMac_idem index

/-! ## Main result -/

/-- Stages do as much as their normal form, whose stages that sort entries are the last ones of their
kind. The entries of every channel end up in a stable sort by them, the last one first, and the
devices ascend if they are sorted at all. So every stage may be repeated, and the devices may be
sorted before or after any other stage. -/
theorem applyStages_normalForm (index : CaptureIndex) (stages : List Stage) :
    index.applyStages stages = index.applyStages (Stage.normalForm stages) ∧
      (∃ order devices, (∀ es, StablySorted (Stage.sortKeys stages) (order es) es) ∧
        index.applyStages stages = mapEntries order ⟨devices⟩ ∧ devices.Perm index.devices ∧
        if .sortByMac ∈ stages then devices.Pairwise fun a b => a.mac.octets ≤ b.mac.octets
        else devices = index.devices) ∧
      (∀ stage, (index.applyStage stage).applyStage stage = index.applyStage stage) ∧
      ∀ stage, (index.applyStage .sortByMac).applyStage stage =
        (index.applyStage stage).applyStage .sortByMac := by
  obtain ⟨devices, harranged, hperm, hdevices⟩ := exists_arrangement stages index
  exact ⟨applyStages_eq_normalForm stages index,
    ⟨_, devices, Stage.stablySorted_entrySorts stages, harranged, hperm, hdevices⟩,
    fun stage => applyStage_idem stage index, fun stage => applyStage_sortByMac_comm stage index⟩

-- by time, then by kind, then by time again
example : Stage.normalForm [.sortByCaptureTime, .sortByMac, .sortByKind, .groupByChannel,
    .sortByCaptureTime] = [.sortByKind, .sortByCaptureTime, .sortByMac] := by
  decide

end CaptureIndex

end CableCapture
