import CableCapture.Proofs.Index.NormalForm

/-!
# What an index holds of one device

Every step of an index works on the group of one device or treats all groups alike. So the part of a
run that belongs to a device is the run of the steps that concern the device, and what any query tells
of the device can be read off that part.
-/

namespace CableCapture

namespace DeviceGroup

variable {e : IndexEntry} {mac : MacAddress}

theorem filter_insert_of_eq (h : e.mac = mac) (devices : List DeviceGroup) :
    (insert e devices).filter (fun device => device.mac = mac) =
      insert e (devices.filter fun device => device.mac = mac) := by
  induction devices with
  | nil => simp [insert, h]
  | cons device rest ih =>
    by_cases hdevice : device.mac = mac
    · simp [insert, h, hdevice]
    · simpa [insert, h, hdevice] using ih

theorem filter_insert_of_ne (h : e.mac ≠ mac) (devices : List DeviceGroup) :
    (insert e devices).filter (fun device => device.mac = mac) =
      devices.filter fun device => device.mac = mac := by
  induction devices with
  | nil => simp [insert, h]
  | cons device rest ih =>
    by_cases hdevice : device.mac = e.mac
    · simp [insert, h, hdevice]
    · simp [insert, hdevice, List.filter_cons, ih]

end DeviceGroup

namespace CaptureIndex

variable {index : CaptureIndex} {mac : MacAddress} {channel : UInt8}

/-- The groups of one device alone. -/
def part (index : CaptureIndex) (mac : MacAddress) : CaptureIndex :=
  ⟨index.devices.filter fun device => device.mac = mac⟩

/-- The rows of the summary that are about one device. -/
def rowsOf [Calendar] (index : CaptureIndex) (mac : MacAddress) : List SummaryRow :=
  index.summary.filter fun row => row.mac = mac

/-! ## Queries -/

theorem groups_part (index : CaptureIndex) (mac : MacAddress) :
    (index.part mac).groups mac = index.groups mac := by
  simp [groups, part, List.find?_filter]

theorem channels_part (index : CaptureIndex) (mac : MacAddress) :
    (index.part mac).channels mac = index.channels mac := by
  unfold channels
  rw [groups_part]

theorem entries_part (index : CaptureIndex) (mac : MacAddress) (channel : UInt8) :
    (index.part mac).entries mac channel = index.entries mac channel := by
  unfold entries
  rw [groups_part]

theorem summary_part [Calendar] (index : CaptureIndex) (mac : MacAddress) :
    (index.part mac).summary = index.rowsOf mac := by
  unfold rowsOf summary part
  rw [List.filter_flatMap]
  induction index.devices with
  | nil => rfl
  | cons device rest ih =>
    have hrows : (device.channels.map (SummaryRow.ofGroup device.mac)).filter
        (fun row => row.mac = mac) =
          if device.mac = mac then device.channels.map (SummaryRow.ofGroup device.mac) else [] := by
      rw [List.filter_map]
      by_cases hmac : device.mac = mac
      · simp [hmac, SummaryRow.ofGroup, Function.comp_def]
      · simp [hmac, SummaryRow.ofGroup, Function.comp_def]
    rw [List.flatMap_cons, hrows, ← ih, List.filter_cons]
    by_cases hmac : device.mac = mac
    · simp [hmac]
    · simp [hmac]

/-- The entries of a device stand in its own group. -/
theorem WellFormed.toList_part (h : index.WellFormed) (mac : MacAddress) :
    (index.part mac).toList = index.toList.filter fun e => e.mac = mac := by
  have hdevices := h.devices
  rw [toList_eq_entries, toList_eq_entries, List.filter_flatMap]
  unfold part
  generalize index.devices = devices at hdevices
  induction devices with
  | nil => rfl
  | cons device rest ih =>
    obtain ⟨hdevice, hrest⟩ := List.forall_mem_cons.1 hdevices
    rw [List.flatMap_cons, ← ih hrest, List.filter_cons]
    by_cases hmac : device.mac = mac
    · have hall : device.entries.filter (fun e => e.mac = mac) = device.entries :=
        List.filter_eq_self.2 fun e he => decide_eq_true ((hdevice.mac_of_mem he).trans hmac)
      simp [hmac, hall]
    · have hnone : device.entries.filter (fun e => e.mac = mac) = [] :=
        List.filter_eq_nil_iff.2 fun e he => by simp [hdevice.mac_of_mem he, hmac]
      simp [hmac, hnone]

/-! ## Steps -/

theorem part_insert (index : CaptureIndex) (e : IndexEntry) (mac : MacAddress) :
    (index.insert e).part mac =
      if e.mac = mac then (index.part mac).insert e else index.part mac := by
  unfold part insert
  split
  · rename_i h
    rw [DeviceGroup.filter_insert_of_eq h]
  · rename_i h
    rw [DeviceGroup.filter_insert_of_ne h]

theorem part_mapEntries (f : List IndexEntry → List IndexEntry) (index : CaptureIndex)
    (mac : MacAddress) : (index.mapEntries f).part mac = (index.part mac).mapEntries f := by
  unfold part mapEntries
  rw [List.filter_map]
  rfl

/-- Sorting the devices moves the group of a device and leaves it as it is. -/
theorem part_sortByMac (index : CaptureIndex) (mac : MacAddress) :
    (index.applyStage .sortByMac).part mac = index.part mac := by
  refine congrArg mk (filter_mergeSort ?_ index.devices)
  intro a b ha hb
  rw [of_decide_eq_true ha, of_decide_eq_true hb]

theorem sortByMac_part (index : CaptureIndex) (mac : MacAddress) :
    (index.part mac).applyStage .sortByMac = index.part mac := by
  refine congrArg mk (List.mergeSort_of_pairwise (List.pairwise_of_forall_mem_list ?_))
  intro a ha b hb
  rw [of_decide_eq_true (List.mem_filter.1 ha).2, of_decide_eq_true (List.mem_filter.1 hb).2]
  exact decide_eq_true (Std.le_refl _)

theorem part_applyStage (stage : Stage) (index : CaptureIndex) (mac : MacAddress) :
    (index.applyStage stage).part mac = (index.part mac).applyStage stage := by
  cases stage with
  | groupByChannel => rfl
  | sortByCaptureTime => exact part_mapEntries _ index mac
  | sortByKind => exact part_mapEntries _ index mac
  | sortByMac => rw [part_sortByMac, sortByMac_part]

theorem part_applyStages (stages : List Stage) (index : CaptureIndex) (mac : MacAddress) :
    (index.applyStages stages).part mac = (index.part mac).applyStages stages := by
  induction stages generalizing index with
  | nil => rfl
  | cons stage rest ih =>
    calc (index.applyStages (stage :: rest)).part mac
      _ = ((index.applyStage stage).applyStages rest).part mac := rfl
      _ = ((index.part mac).applyStage stage).applyStages rest := by rw [ih, part_applyStage]
      _ = (index.part mac).applyStages (stage :: rest) := rfl

/-- The step inserts an entry of the device or reorders the index. -/
def Step.concerns (mac : MacAddress) : Step → Bool
  | .insert e => e.mac = mac
  | .stages _ => true

theorem part_step (index : CaptureIndex) (s : Step) (mac : MacAddress) :
    (index.step s).part mac =
      if s.concerns mac then (index.part mac).step s else index.part mac := by
  cases s with
  | insert e => simpa [Step.concerns, step] using part_insert index e mac
  | stages stages => exact part_applyStages stages index mac

theorem part_foldl_step (steps : List Step) (index : CaptureIndex) (mac : MacAddress) :
    (steps.foldl step index).part mac =
      (steps.filter (Step.concerns mac)).foldl step (index.part mac) := by
  induction steps generalizing index with
  | nil => rfl
  | cons s rest ih =>
    rw [List.foldl_cons, ih, part_step]
    by_cases hconcerns : s.concerns mac
    · rw [if_pos hconcerns, List.filter_cons_of_pos hconcerns, List.foldl_cons]
    · rw [if_neg hconcerns, List.filter_cons_of_neg hconcerns]

/-- A device's part of a run is the run of the steps that concern it. -/
theorem part_run (steps : List Step) (mac : MacAddress) :
    (run steps).part mac = run (steps.filter (Step.concerns mac)) :=
  part_foldl_step steps empty mac

/-! ## Files -/

/-- The files that are identified as captures of a device. -/
def filesOf (mac : MacAddress) (files : List (String × List UInt8)) :
    List (String × List UInt8) :=
  files.filter fun (name, bytes) =>
    (IndexEntry.ofFile name bytes).toOption.any fun e => e.mac = mac

/-- A device's part of the index of a batch is the index of its own files. -/
theorem part_ofFiles (files : List (String × List UInt8)) (mac : MacAddress) :
    (ofFiles files).part mac = ofFiles (filesOf mac files) := by
  have hown : (accepted files).filter (fun e => e.mac = mac) = accepted (filesOf mac files) :=
    filter_accepted _ files
  calc (ofFiles files).part mac
    _ = (run ((accepted files).map .insert)).part mac := by rw [← ofEntries_eq_run]; rfl
    _ = run (((accepted files).filter fun e => e.mac = mac).map .insert) := by
      rw [part_run, List.filter_map]
      rfl
    _ = ofFiles (filesOf mac files) := by
      rw [hown, ← ofEntries_eq_run]
      rfl

/-! ## Stages -/

/-- A stage does no more to a device than to reorder the entries of its channels. -/
theorem exists_reorder_part (stage : Stage) (index : CaptureIndex) (mac : MacAddress) :
    ∃ f : List IndexEntry → List IndexEntry, (∀ es, (f es).Perm es) ∧
      (index.applyStage stage).part mac = (index.part mac).mapEntries f := by
  rw [part_applyStage]
  cases stage with
  | groupByChannel => exact ⟨fun es => es, fun _ => .refl _, (mapEntries_id _).symm⟩
  | sortByCaptureTime => exact ⟨_, fun es => List.mergeSort_perm es _, rfl⟩
  | sortByKind => exact ⟨_, fun es => List.mergeSort_perm es _, rfl⟩
  | sortByMac =>
    exact ⟨fun es => es, fun _ => .refl _, (sortByMac_part index mac).trans (mapEntries_id _).symm⟩

theorem channels_mapEntries (f : List IndexEntry → List IndexEntry) (index : CaptureIndex)
    (mac : MacAddress) : (index.mapEntries f).channels mac = index.channels mac := by
  unfold channels groups mapEntries
  simp only [List.find?_map, Function.comp_def]
  cases index.devices.find? fun device => device.mac = mac with
  | none => rfl
  | some device => simp

theorem channels_applyStages (stages : List Stage) (index : CaptureIndex) (mac : MacAddress) :
    (index.applyStages stages).channels mac = index.channels mac := by
  induction stages generalizing index with
  | nil => rfl
  | cons stage rest ih =>
    obtain ⟨f, -, hpart⟩ := exists_reorder_part stage index mac
    calc (index.applyStages (stage :: rest)).channels mac
      _ = (index.applyStage stage).channels mac := ih (index.applyStage stage)
      _ = ((index.part mac).mapEntries f).channels mac := by rw [← channels_part, hpart]
      _ = index.channels mac := by rw [channels_mapEntries, channels_part]

theorem rowsOf_applyStages [Calendar] (stages : List Stage) (index : CaptureIndex)
    (mac : MacAddress) : (index.applyStages stages).rowsOf mac = index.rowsOf mac := by
  induction stages generalizing index with
  | nil => rfl
  | cons stage rest ih =>
    obtain ⟨f, hf, hpart⟩ := exists_reorder_part stage index mac
    calc (index.applyStages (stage :: rest)).rowsOf mac
      _ = (index.applyStage stage).rowsOf mac := ih (index.applyStage stage)
      _ = ((index.part mac).mapEntries f).summary := by rw [← summary_part, hpart]
      _ = index.rowsOf mac := by rw [summary_mapEntries hf, summary_part]

end CaptureIndex

end CableCapture
