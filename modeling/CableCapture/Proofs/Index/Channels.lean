import CableCapture.Proofs.Index.Stages

/-!
# The channels of an index

Every entry stands in the one group of its device and its channel. So a query for a channel picks its
entries out of the index in their order, and the rows of the summary count all entries once.
-/

namespace CableCapture

/-- Where every part holds the members of its own key, a key picks out its part. -/
theorem filter_flatMap_of_nodup {α κ : Type} [DecidableEq κ] {key : α → κ} {keys : List κ}
    {part : κ → List α} (hnodup : keys.Nodup) (hkey : ∀ k ∈ keys, ∀ a ∈ part k, key a = k) (k : κ) :
    (keys.flatMap part).filter (fun a => key a = k) = if k ∈ keys then part k else [] := by
  induction keys with
  | nil => rfl
  | cons head rest ih =>
    obtain ⟨hnew, hrest⟩ := List.nodup_cons.1 hnodup
    obtain ⟨hhead, hkeys⟩ := List.forall_mem_cons.1 hkey
    rw [List.flatMap_cons, List.filter_append, ih hrest hkeys]
    by_cases h : head = k
    · subst h
      have hself : (part head).filter (fun a => key a = head) = part head :=
        List.filter_eq_self.2 fun a ha => decide_eq_true (hhead a ha)
      simp [hself, hnew]
    · have hnone : (part head).filter (fun a => key a = k) = [] :=
        List.filter_eq_nil_iff.2 fun a ha => by simp [hhead a ha, h]
      simp [hnone, Ne.symm h]

namespace CaptureIndex

variable {index : CaptureIndex} {mac : MacAddress} {channel : UInt8} {e : IndexEntry}

/-! ## Entries of a channel -/

theorem exists_group_of_mem_entries (he : e ∈ index.entries mac channel) :
    ∃ device ∈ index.devices, device.mac = mac ∧
      ∃ g ∈ device.channels, g.channel = channel ∧ e ∈ g.entries := by
  unfold entries groups at he
  cases hdevice : index.devices.find? fun device => device.mac = mac with
  | none => simp [hdevice] at he
  | some device =>
    cases hg : device.channels.find? fun g => g.channel = channel with
    | none => simp [hdevice, hg] at he
    | some g =>
      simp only [hdevice, hg, Option.map_some, Option.getD_some] at he
      have hmac : device.mac = mac := by simpa using List.find?_some hdevice
      have hchannel : g.channel = channel := by simpa using List.find?_some hg
      exact ⟨device, List.mem_of_find?_eq_some hdevice, hmac, g, List.mem_of_find?_eq_some hg,
        hchannel, he⟩

theorem WellFormed.of_mem_entries (h : index.WellFormed) (he : e ∈ index.entries mac channel) :
    e.mac = mac ∧ e.channel = channel := by
  obtain ⟨device, hdevice, rfl, g, hg, rfl, hentry⟩ := exists_group_of_mem_entries he
  have hgroup := (h.devices device hdevice).groups g hg
  exact ⟨hgroup.mac e hentry, hgroup.channel e hentry⟩

theorem WellFormed.nodup_channels (h : index.WellFormed) (mac : MacAddress) :
    (index.channels mac).Nodup := by
  unfold channels groups
  cases hdevice : index.devices.find? fun device => device.mac = mac with
  | none => exact List.nodup_nil
  | some device => exact (h.devices device (List.mem_of_find?_eq_some hdevice)).nodup

theorem WellFormed.mem_channels (h : index.WellFormed) (he : e ∈ index.entries mac channel) :
    mac ∈ index.macs ∧ channel ∈ index.channels mac := by
  obtain ⟨device, hdevice, rfl, g, hg, rfl, -⟩ := exists_group_of_mem_entries he
  refine ⟨List.mem_map_of_mem hdevice, ?_⟩
  unfold channels
  rw [h.groups_eq hdevice]
  exact List.mem_map_of_mem hg

/-- The entries of a device stand channel by channel. -/
theorem WellFormed.filter_mac_toList (h : index.WellFormed) (mac : MacAddress) :
    index.toList.filter (fun e => e.mac = mac) =
      (index.channels mac).flatMap (index.entries mac) := by
  rw [h.toList_eq_queries, filter_flatMap_of_nodup h.nodup, ite_eq_left_iff]
  · intro hmissing
    refine (List.flatMap_eq_nil_iff.2 fun c _ => ?_).symm
    exact List.eq_nil_iff_forall_not_mem.2 fun e he => hmissing (h.mem_channels he).1
  · intro m _ e he
    obtain ⟨c, -, he⟩ := List.mem_flatMap.1 he
    exact (h.of_mem_entries he).1

/-- The query for a channel answers with its entries in the order of the index. -/
theorem WellFormed.filter_toList (h : index.WellFormed) (mac : MacAddress) (channel : UInt8) :
    index.toList.filter (fun e => e.mac = mac ∧ e.channel = channel) =
      index.entries mac channel := by
  have hchannel : ((index.channels mac).flatMap (index.entries mac)).filter
      (fun e => e.channel = channel) = index.entries mac channel := by
    rw [filter_flatMap_of_nodup (h.nodup_channels mac), ite_eq_left_iff]
    · intro hmissing
      exact (List.eq_nil_iff_forall_not_mem.2 fun e he => hmissing (h.mem_channels he).2).symm
    · intro c _ e he
      exact (h.of_mem_entries he).2
  rw [← hchannel, ← h.filter_mac_toList, List.filter_filter]
  simp [Bool.and_comm]

/-! ## Rows -/

theorem WellFormed.nodup_summary [Calendar] (h : index.WellFormed) :
    (index.summary.map fun row => (row.mac, row.channel)).Nodup := by
  unfold summary
  rw [List.map_flatMap, List.nodup_iff_pairwise_ne, List.pairwise_flatMap]
  constructor
  · intro device hdevice
    rw [List.map_map, List.pairwise_map]
    exact (List.pairwise_map.1 (h.devices device hdevice).nodup).imp
      fun hne heq => hne (congrArg Prod.snd heq)
  · refine (List.pairwise_map.1 h.nodup).imp fun {a b} hne x hx y hy => ?_
    rw [List.map_map] at hx hy
    obtain ⟨g, -, rfl⟩ := List.mem_map.1 hx
    obtain ⟨g', -, rfl⟩ := List.mem_map.1 hy
    exact fun heq => hne (congrArg Prod.fst heq)

theorem sum_captureCount_summary [Calendar] :
    (index.summary.map SummaryRow.captureCount).sum = index.size := by
  unfold summary size toList
  rw [← List.flatMap_assoc, List.length_flatMap, List.map_flatMap, List.map_flatMap]
  simp only [List.map_map]
  rfl

/-- The row of an entry's channel lists the kind of the entry. -/
theorem exists_row_of_mem_entries [Calendar] (he : e ∈ index.entries mac channel) :
    ∃ row ∈ index.summary, row.mac = mac ∧ row.channel = channel ∧ e.kind ∈ row.kinds := by
  obtain ⟨device, hdevice, rfl, g, hg, rfl, hentry⟩ := exists_group_of_mem_entries he
  refine ⟨.ofGroup device.mac g, ?_, rfl, rfl, ?_⟩
  · exact List.mem_flatMap.2 ⟨device, hdevice, List.mem_map_of_mem hg⟩
  · refine List.mem_filter.2 ⟨?_, List.any_eq_true.2 ⟨e, hentry, decide_eq_true rfl⟩⟩
    cases e.kind <;> decide

/-! ## Files -/

theorem size_ofFiles (files : List (String × List UInt8)) :
    (ofFiles files).size =
      files.countP fun (name, bytes) => (IndexEntry.ofFile name bytes).isOk := by
  have hperm := toList_ofEntries_perm
    (files.filterMap fun (name, bytes) => (IndexEntry.ofFile name bytes).toOption)
  unfold size ofFiles
  rw [hperm.length_eq, List.length_filterMap_eq_countP]
  congr 1
  funext ⟨name, bytes⟩
  cases hentry : IndexEntry.ofFile name bytes with
  | error fault => simp [hentry, Except.toOption, Except.isOk, Except.toBool]
  | ok e => simp [hentry, Except.toOption, Except.isOk, Except.toBool]

theorem filed_of_mem_applyStages {files : List (String × List UInt8)} {stages : List Stage}
    (he : e ∈ ((ofFiles files).applyStages stages).toList) : e.Filed :=
  filed_of_mem_ofFiles ((toList_applyStages_perm stages).mem_iff.1 he)

end CaptureIndex

end CableCapture
