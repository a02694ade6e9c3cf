import Mathlib.Data.List.Perm.Basic
import CableCapture.CaptureIndex

/-!
# Well-formed indexes

An index is well-formed when its groups are disjoint, filled and filed by the keys of their entries.
Every step that an index can take, the insertion of an entry or a list of stages, preserves this and
loses no entry.
-/

namespace CableCapture

/-- Distinct keys stay distinct when a missing one is put behind them. -/
theorem nodup_with_key {α : Type} [DecidableEq α] {keys : List α} {key : α} (h : keys.Nodup) :
    (if key ∈ keys then keys else keys ++ [key]).Nodup := by
  split
  · exact h
  · rename_i hnew
    refine List.nodup_append.2 ⟨h, by simp, ?_⟩
    intro a ha b hb hab
    rw [List.mem_singleton.1 hb] at hab
    exact hnew (hab ▸ ha)

/-! ## Channels -/

/-- A filled group with entries of one channel of one device. -/
structure ChannelGroup.WellFormed (mac : MacAddress) (g : ChannelGroup) : Prop where
  nonempty : g.entries ≠ []
  channel : ∀ e ∈ g.entries, e.channel = g.channel
  mac : ∀ e ∈ g.entries, e.mac = mac

namespace ChannelGroup

variable {e : IndexEntry} {gs : List ChannelGroup}

theorem insert_ne_nil : insert e gs ≠ [] := by
  cases gs with
  | nil => exact List.cons_ne_nil _ _
  | cons g rest =>
    unfold insert
    split <;> exact List.cons_ne_nil _ _

theorem channels_insert :
    (insert e gs).map channel =
      if e.channel ∈ gs.map channel then gs.map channel else gs.map channel ++ [e.channel] := by
  induction gs with
  | nil => rfl
  | cons g rest ih =>
    unfold insert
    by_cases h : g.channel = e.channel
    · simp [h]
    · rw [if_neg h, List.map_cons, ih]
      by_cases hmem : e.channel ∈ rest.map channel
      · simp [hmem]
      · simp [hmem, Ne.symm h]

theorem nodup_insert (h : (gs.map channel).Nodup) : ((insert e gs).map channel).Nodup := by
  rw [channels_insert]
  exact nodup_with_key h

theorem WellFormed.push {mac : MacAddress} {g : ChannelGroup} (h : g.WellFormed mac)
    (hchannel : e.channel = g.channel) (hmac : e.mac = mac) :
    WellFormed mac ⟨g.channel, g.entries ++ [e]⟩ where
  nonempty := by simp
  channel := by
    intro other hother
    rcases List.mem_append.1 hother with hold | hnew
    · exact h.channel other hold
    · rw [List.mem_singleton.1 hnew, hchannel]
  mac := by
    intro other hother
    rcases List.mem_append.1 hother with hold | hnew
    · exact h.mac other hold
    · rw [List.mem_singleton.1 hnew, hmac]

theorem wellFormed_insert (h : ∀ g ∈ gs, g.WellFormed e.mac) :
    ∀ g ∈ insert e gs, g.WellFormed e.mac := by
  induction gs with
  | nil =>
    intro g hg
    obtain rfl := List.mem_singleton.1 hg
    exact ⟨List.cons_ne_nil _ _, by simp, by simp⟩
  | cons head rest ih =>
    obtain ⟨hhead, hrest⟩ := List.forall_mem_cons.1 h
    unfold insert
    split
    · rename_i hchannel
      exact List.forall_mem_cons.2 ⟨hhead.push hchannel.symm rfl, hrest⟩
    · exact List.forall_mem_cons.2 ⟨hhead, ih hrest⟩

theorem WellFormed.reorder {mac : MacAddress} {g : ChannelGroup} (h : g.WellFormed mac)
    {es : List IndexEntry} (hes : es.Perm g.entries) : WellFormed mac { g with entries := es } where
  nonempty := by
    intro hnil
    subst hnil
    exact h.nonempty hes.nil_eq.symm
  channel := fun other hother => h.channel other (hes.mem_iff.1 hother)
  mac := fun other hother => h.mac other (hes.mem_iff.1 hother)

theorem entries_insert_perm :
    ((insert e gs).flatMap entries).Perm (e :: gs.flatMap entries) := by
  induction gs with
  | nil => exact .refl _
  | cons g rest ih =>
    unfold insert
    split
    · simp only [List.flatMap_cons, List.append_assoc, List.singleton_append]
      exact List.perm_middle
    · simp only [List.flatMap_cons]
      exact (ih.append_left g.entries).trans List.perm_middle

end ChannelGroup

/-! ## Devices -/

/-- A device with a filled group for each of its channels. -/
structure DeviceGroup.WellFormed (device : DeviceGroup) : Prop where
  nonempty : device.channels ≠ []
  nodup : (device.channels.map ChannelGroup.channel).Nodup
  groups : ∀ g ∈ device.channels, g.WellFormed device.mac

namespace DeviceGroup

variable {e : IndexEntry} {devices : List DeviceGroup}

/-- The entries of a device in the order of its channels. -/
def entries (device : DeviceGroup) : List IndexEntry :=
  device.channels.flatMap ChannelGroup.entries

theorem WellFormed.mac_of_mem {device : DeviceGroup} (h : device.WellFormed)
    (he : e ∈ device.entries) : e.mac = device.mac := by
  obtain ⟨g, hg, he⟩ := List.mem_flatMap.1 he
  exact (h.groups g hg).mac e he

theorem WellFormed.entries_ne_nil {device : DeviceGroup} (h : device.WellFormed) :
    device.entries ≠ [] := by
  obtain ⟨g, hg⟩ := List.exists_mem_of_ne_nil _ h.nonempty
  obtain ⟨e, he⟩ := List.exists_mem_of_ne_nil _ (h.groups g hg).nonempty
  exact List.ne_nil_of_mem (List.mem_flatMap.2 ⟨g, hg, he⟩)

theorem macs_insert :
    (insert e devices).map mac =
      if e.mac ∈ devices.map mac then devices.map mac else devices.map mac ++ [e.mac] := by
  induction devices with
  | nil => rfl
  | cons device rest ih =>
    unfold insert
    by_cases h : device.mac = e.mac
    · simp [h]
    · rw [if_neg h, List.map_cons, ih]
      by_cases hmem : e.mac ∈ rest.map mac
      · simp [hmem]
      · simp [hmem, Ne.symm h]

theorem nodup_insert (h : (devices.map mac).Nodup) : ((insert e devices).map mac).Nodup := by
  rw [macs_insert]
  exact nodup_with_key h

theorem WellFormed.insert {device : DeviceGroup} (h : device.WellFormed)
    (hmac : device.mac = e.mac) :
    WellFormed ⟨device.mac, ChannelGroup.insert e device.channels⟩ where
  nonempty := ChannelGroup.insert_ne_nil
  nodup := ChannelGroup.nodup_insert h.nodup
  groups := by
    rw [hmac]
    exact ChannelGroup.wellFormed_insert (hmac ▸ h.groups)

theorem wellFormed_insert (h : ∀ device ∈ devices, device.WellFormed) :
    ∀ device ∈ insert e devices, device.WellFormed := by
  induction devices with
  | nil =>
    intro device hdevice
    obtain rfl := List.mem_singleton.1 hdevice
    exact {
      nonempty := ChannelGroup.insert_ne_nil
      nodup := ChannelGroup.nodup_insert List.nodup_nil
      groups := ChannelGroup.wellFormed_insert (by simp) }
  | cons head rest ih =>
    obtain ⟨hhead, hrest⟩ := List.forall_mem_cons.1 h
    unfold insert
    split
    · rename_i hmac
      exact List.forall_mem_cons.2 ⟨hhead.insert hmac, hrest⟩
    · exact List.forall_mem_cons.2 ⟨hhead, ih hrest⟩

theorem entries_insert_perm :
    ((insert e devices).flatMap entries).Perm (e :: devices.flatMap entries) := by
  induction devices with
  | nil => exact .refl _
  | cons device rest ih =>
    unfold insert
    split
    · simp only [List.flatMap_cons]
      exact ChannelGroup.entries_insert_perm.append_right _
    · simp only [List.flatMap_cons]
      exact (ih.append_left device.entries).trans List.perm_middle

end DeviceGroup

/-! ## Indexes -/

namespace CaptureIndex

/-- Every device has one group, and that is well-formed. -/
structure WellFormed (index : CaptureIndex) : Prop where
  nodup : index.macs.Nodup
  devices : ∀ device ∈ index.devices, device.WellFormed

variable {index : CaptureIndex} {e : IndexEntry}

theorem toList_eq_entries : index.toList = index.devices.flatMap DeviceGroup.entries := rfl

theorem WellFormed.empty : WellFormed empty where
  nodup := List.nodup_nil
  devices := fun _ hdevice => absurd hdevice List.not_mem_nil

theorem WellFormed.insert (h : index.WellFormed) (e : IndexEntry) :
    (index.insert e).WellFormed where
  nodup := DeviceGroup.nodup_insert h.nodup
  devices := DeviceGroup.wellFormed_insert h.devices

theorem toList_insert_perm : (index.insert e).toList.Perm (e :: index.toList) :=
  DeviceGroup.entries_insert_perm

/-! ### Stages -/

section Reorder

variable {f : List IndexEntry → List IndexEntry} (hf : ∀ es, (f es).Perm es)
include hf

theorem WellFormed.mapEntries (h : index.WellFormed) : (index.mapEntries f).WellFormed where
  nodup := by
    have hmacs : (index.mapEntries f).macs = index.macs := by
      simp [macs, CaptureIndex.mapEntries, Function.comp_def]
    rw [hmacs]
    exact h.nodup
  devices := by
    intro device hdevice
    obtain ⟨old, hold, rfl⟩ := List.mem_map.1 hdevice
    have hwf := h.devices old hold
    exact {
      nonempty := by simpa using hwf.nonempty
      nodup := by simpa [Function.comp_def] using hwf.nodup
      groups := by
        intro g hg
        obtain ⟨oldGroup, holdGroup, rfl⟩ := List.mem_map.1 hg
        exact (hwf.groups oldGroup holdGroup).reorder (hf _) }

theorem toList_mapEntries_perm : (index.mapEntries f).toList.Perm index.toList := by
  simp only [toList, mapEntries, List.flatMap_map]
  refine List.Perm.flatMap_left _ fun device _ => ?_
  exact List.Perm.flatMap_left _ fun g _ => hf g.entries

end Reorder

theorem WellFormed.applyStage (h : index.WellFormed) (stage : Stage) :
    (index.applyStage stage).WellFormed := by
  cases stage with
  | groupByChannel => exact h
  | sortByCaptureTime => exact h.mapEntries fun es => List.mergeSort_perm es _
  | sortByKind => exact h.mapEntries fun es => List.mergeSort_perm es _
  | sortByMac =>
    have hperm := List.mergeSort_perm index.devices fun a b => a.mac.display ≤ b.mac.display
    exact {
      nodup := (hperm.map DeviceGroup.mac).nodup_iff.2 h.nodup
      devices := fun device hdevice => h.devices device (hperm.mem_iff.1 hdevice) }

theorem toList_applyStage_perm (stage : Stage) :
    (index.applyStage stage).toList.Perm index.toList := by
  cases stage with
  | groupByChannel => exact .refl _
  | sortByCaptureTime => exact toList_mapEntries_perm fun es => List.mergeSort_perm es _
  | sortByKind => exact toList_mapEntries_perm fun es => List.mergeSort_perm es _
  | sortByMac => exact (List.mergeSort_perm index.devices _).flatMap_right _

theorem WellFormed.applyStages (h : index.WellFormed) (stages : List Stage) :
    (index.applyStages stages).WellFormed := by
  induction stages generalizing index with
  | nil => exact h
  | cons stage rest ih => exact ih (h.applyStage stage)

theorem toList_applyStages_perm (stages : List Stage) :
    (index.applyStages stages).toList.Perm index.toList := by
  induction stages generalizing index with
  | nil => exact .refl _
  | cons stage rest ih => exact ih.trans (toList_applyStage_perm stage)

/-! ### Queries -/

/-- Among distinct keys a search finds the one member with the key. -/
theorem find?_of_nodup {α β : Type} [DecidableEq β] {key : α → β} {l : List α} {a : α}
    (h : (l.map key).Nodup) (ha : a ∈ l) : (l.find? fun b => key b = key a) = some a := by
  induction l with
  | nil => exact absurd ha List.not_mem_nil
  | cons b rest ih =>
    rw [List.map_cons, List.nodup_cons] at h
    rw [List.find?_cons]
    rcases List.mem_cons.1 ha with rfl | hrest
    · simp
    · have hne : key b ≠ key a := fun heq => h.1 (heq ▸ List.mem_map_of_mem hrest)
      simpa [hne] using ih h.2 hrest

theorem WellFormed.groups_eq (h : index.WellFormed) {device : DeviceGroup}
    (hdevice : device ∈ index.devices) : index.groups device.mac = device.channels := by
  unfold groups
  rw [find?_of_nodup h.nodup hdevice]
  rfl

theorem WellFormed.entries_eq (h : index.WellFormed) {device : DeviceGroup} {g : ChannelGroup}
    (hdevice : device ∈ index.devices) (hg : g ∈ device.channels) :
    index.entries device.mac g.channel = g.entries := by
  unfold entries
  rw [h.groups_eq hdevice, find?_of_nodup (h.devices device hdevice).nodup hg]
  rfl

/-- The list of a well-formed index is that of its queries, device by device. -/
theorem WellFormed.toList_eq_queries (h : index.WellFormed) :
    index.toList =
      index.macs.flatMap fun mac => (index.channels mac).flatMap (index.entries mac) := by
  unfold toList macs
  rw [List.flatMap_map]
  refine List.flatMap_congr fun device hdevice => ?_
  unfold channels
  rw [h.groups_eq hdevice, List.flatMap_map]
  exact List.flatMap_congr fun g hg => (h.entries_eq hdevice hg).symm

theorem WellFormed.isEmpty_iff (h : index.WellFormed) :
    index.isEmpty = true ↔ index.size = 0 := by
  unfold isEmpty size
  rw [List.isEmpty_iff, List.length_eq_zero_iff, toList_eq_entries, List.flatMap_eq_nil_iff]
  constructor
  · intro hnil device hdevice
    rw [hnil] at hdevice
    exact absurd hdevice List.not_mem_nil
  · intro hall
    cases hdevices : index.devices with
    | nil => rfl
    | cons device rest =>
      have hmem : device ∈ index.devices := hdevices ▸ List.mem_cons_self
      exact absurd (hall device hmem) (h.devices device hmem).entries_ne_nil

/-! ### Runs -/

/-- What can happen to an index. -/
inductive Step where
  | insert (e : IndexEntry)
  | stages (stages : List Stage)

def step (index : CaptureIndex) : Step → CaptureIndex
  | .insert e => index.insert e
  | .stages stages => index.applyStages stages

/-- The index after a number of steps from the empty one. -/
def run (steps : List Step) : CaptureIndex :=
  steps.foldl step empty

/-- The entries that the steps insert. -/
def inserted (steps : List Step) : List IndexEntry :=
  steps.filterMap fun
    | .insert e => some e
    | .stages _ => none

theorem WellFormed.step (h : index.WellFormed) (s : Step) : (index.step s).WellFormed := by
  cases s with
  | insert e => exact h.insert e
  | stages stages => exact h.applyStages stages

theorem toList_step_perm (s : Step) :
    (index.step s).toList.Perm (index.toList ++ inserted [s]) := by
  cases s with
  | insert e => exact toList_insert_perm.trans (List.perm_append_singleton e _).symm
  | stages stages =>
    have hnone : inserted [.stages stages] = [] := rfl
    rw [hnone, List.append_nil]
    exact toList_applyStages_perm stages

theorem inserted_cons (s : Step) (rest : List Step) :
    inserted (s :: rest) = inserted [s] ++ inserted rest :=
  List.filterMap_append (l := [s])

theorem WellFormed.foldl_step (h : index.WellFormed) (steps : List Step) :
    (steps.foldl CaptureIndex.step index).WellFormed := by
  induction steps generalizing index with
  | nil => exact h
  | cons s rest ih => exact ih (h.step s)

theorem toList_foldl_step_perm (steps : List Step) :
    (steps.foldl step index).toList.Perm (index.toList ++ inserted steps) := by
  induction steps generalizing index with
  | nil =>
    rw [inserted, List.filterMap_nil, List.append_nil]
    exact .refl _
  | cons s rest ih =>
    rw [inserted_cons, ← List.append_assoc]
    exact ih.trans ((toList_step_perm s).append_right _)

theorem WellFormed.run (steps : List Step) : (run steps).WellFormed :=
  WellFormed.empty.foldl_step steps

theorem toList_run_perm (steps : List Step) : (run steps).toList.Perm (inserted steps) :=
  toList_foldl_step_perm steps

theorem foldl_insert_eq_run (entries : List IndexEntry) (index : CaptureIndex) :
    entries.foldl insert index = (entries.map Step.insert).foldl step index := by
  rw [List.foldl_map]
  rfl

theorem ofEntries_eq_run (entries : List IndexEntry) :
    ofEntries entries = run (entries.map .insert) :=
  foldl_insert_eq_run entries empty

theorem inserted_map_insert (entries : List IndexEntry) :
    inserted (entries.map .insert) = entries := by
  unfold inserted
  rw [List.filterMap_map]
  exact List.filterMap_some

theorem WellFormed.ofEntries (entries : List IndexEntry) : (ofEntries entries).WellFormed := by
  rw [ofEntries_eq_run]
  exact .run _

theorem toList_ofEntries_perm (entries : List IndexEntry) :
    (ofEntries entries).toList.Perm entries := by
  rw [ofEntries_eq_run]
  exact (toList_run_perm _).trans (.of_eq (inserted_map_insert entries))

/-- Whatever the steps, the index is well-formed and holds what they inserted, and its queries
agree with each other. The index of a list of entries and that of a list of files are such runs. -/
theorem run_wellFormed_and_complete :
    (∀ steps : List Step,
      (run steps).WellFormed ∧ (run steps).toList.Perm (inserted steps) ∧
        (run steps).size = (inserted steps).length ∧
        ((run steps).isEmpty = true ↔ (run steps).size = 0) ∧
        (run steps).toList =
          (run steps).macs.flatMap fun mac =>
            ((run steps).channels mac).flatMap ((run steps).entries mac)) ∧
    (∀ entries : List IndexEntry, ofEntries entries = run (entries.map .insert)) ∧
    ∀ files : List (String × List UInt8),
      ofFiles files =
        run ((files.filterMap fun (name, bytes) =>
          (IndexEntry.ofFile name bytes).toOption).map .insert) := by
  refine ⟨?_, ofEntries_eq_run, fun files => ofEntries_eq_run _⟩
  intro steps
  have hwf := WellFormed.run steps
  have hperm := toList_run_perm steps
  exact ⟨hwf, hperm, hperm.length_eq, hwf.isEmpty_iff, hwf.toList_eq_queries⟩

end CaptureIndex

end CableCapture
