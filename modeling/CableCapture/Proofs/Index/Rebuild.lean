import CableCapture.Proofs.Index.FirstSeen

/-!
# Rebuilding an index

The queries of a well-formed index tell all of it, and they see its entries group by group. Entries
that come group by group bring devices and channels up in the order of the groups, so the index that
is built from them is the same one.
-/

namespace CableCapture

namespace CaptureIndex

variable {index other : CaptureIndex}

/-! ## Queries tell all -/

theorem WellFormed.devices_eq (h : index.WellFormed) :
    index.devices = index.macs.map fun mac =>
      ⟨mac, (index.channels mac).map fun channel => ⟨channel, index.entries mac channel⟩⟩ := by
  unfold macs
  rw [List.map_map]
  conv_lhs => rw [← List.map_id index.devices]
  refine List.map_congr_left fun device hdevice => ?_
  have hgroups : device.channels = (index.channels device.mac).map fun channel =>
      ⟨channel, index.entries device.mac channel⟩ := by
    unfold channels
    rw [h.groups_eq hdevice, List.map_map]
    conv_lhs => rw [← List.map_id device.channels]
    refine List.map_congr_left fun g hg => ?_
    simp only [Function.comp_apply, h.entries_eq hdevice hg, id_eq]
  simp only [Function.comp_apply, ← hgroups, id_eq]

theorem WellFormed.ext (h : index.WellFormed) (hother : other.WellFormed)
    (hmacs : index.macs = other.macs) (hchannels : ∀ mac, index.channels mac = other.channels mac)
    (hentries : ∀ mac channel, index.entries mac channel = other.entries mac channel) :
    index = other := by
  have hdevices : index.devices = other.devices := by
    rw [h.devices_eq, hother.devices_eq, hmacs]
    simp only [hchannels, hentries]
  exact congrArg CaptureIndex.mk hdevices

/-- An index is known from the entries whose first occurrences it follows. -/
theorem FirstSeen.unique {es : List IndexEntry} (h : index.FirstSeen es)
    (hother : other.FirstSeen es) (hwf : index.WellFormed) (hotherWf : other.WellFormed) :
    index = other :=
  hwf.ext hotherWf (h.macs.trans hother.macs.symm)
    (fun mac => (h.channels mac).trans (hother.channels mac).symm)
    fun mac channel => (h.entries mac channel).trans (hother.entries mac channel).symm

/-! ## The list of an index -/

theorem WellFormed.entries_ne_nil (h : index.WellFormed) {mac : MacAddress} {channel : UInt8}
    (hchannel : channel ∈ index.channels mac) : index.entries mac channel ≠ [] := by
  unfold channels groups at hchannel
  cases hfound : index.devices.find? fun device => device.mac = mac with
  | none => simp [hfound] at hchannel
  | some device =>
    have hdevice := List.mem_of_find?_eq_some hfound
    obtain rfl : device.mac = mac := by simpa using List.find?_some hfound
    simp only [hfound, Option.map_some, Option.getD_some] at hchannel
    obtain ⟨g, hg, rfl⟩ := List.mem_map.1 hchannel
    rw [h.entries_eq hdevice hg]
    exact ((h.devices device hdevice).groups g hg).nonempty

theorem WellFormed.channels_ne_nil (h : index.WellFormed) {mac : MacAddress}
    (hmac : mac ∈ index.macs) : index.channels mac ≠ [] := by
  obtain ⟨device, hdevice, rfl⟩ := List.mem_map.1 hmac
  unfold channels
  rw [h.groups_eq hdevice]
  simpa using (h.devices device hdevice).nonempty

/-- A well-formed index lists its groups as its own entries bring them up. -/
theorem WellFormed.firstSeen_toList (h : index.WellFormed) : index.FirstSeen index.toList where
  macs := by
    rw [h.toList_eq_queries]
    refine (eraseDups_map_flatMap h.nodup ?_ ?_).symm
    · intro mac hmac hnil
      obtain ⟨channel, hchannel⟩ := List.exists_mem_of_ne_nil _ (h.channels_ne_nil hmac)
      exact h.entries_ne_nil hchannel (List.flatMap_eq_nil_iff.1 hnil channel hchannel)
    · intro mac _ e he
      obtain ⟨channel, -, he⟩ := List.mem_flatMap.1 he
      exact (h.of_mem_entries he).1
  channels mac := by
    rw [h.filter_mac_toList]
    exact (eraseDups_map_flatMap (h.nodup_channels mac) (fun _ => h.entries_ne_nil)
      fun _ _ _ he => (h.of_mem_entries he).2).symm
  entries mac channel := (h.filter_toList mac channel).symm

theorem WellFormed.ofEntries_toList (h : index.WellFormed) :
    CaptureIndex.ofEntries index.toList = index :=
  (firstSeen_ofEntries _).unique h.firstSeen_toList (.ofEntries _) h

/-- Whatever the steps, the index that is built from the list of an index is that index. It takes
nothing but well-formedness, and nothing less: an index with an empty, a repeated or a wrongly filed
group does not come back. -/
theorem rebuilt_index_is_same :
    (∀ steps : List Step, ofEntries (run steps).toList = run steps) ∧
      ∀ index : CaptureIndex, ofEntries index.toList = index ↔ index.WellFormed := by
  refine ⟨fun steps => (WellFormed.run steps).ofEntries_toList, fun index => ⟨?_, ?_⟩⟩
  · intro hsame
    rw [← hsame]
    exact .ofEntries _
  · exact WellFormed.ofEntries_toList

end CaptureIndex

end CableCapture
