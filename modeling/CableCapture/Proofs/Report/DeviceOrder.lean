import CableCapture.Proofs.Index.NormalForm
import CableCapture.Proofs.Report.Aggregation
import CableCapture.Proofs.Report.Attribution

/-!
# One order of devices

Devices are sorted by the texts of their addresses, and the stores of a fleet are kept by octets. Both
orders are the same. So if the devices of an index are sorted, all sections of its report go through
them in one order.
-/

namespace CableCapture

namespace MacAddress

/-- The comparison of texts is that of octets. -/
theorem compare_display (a b : MacAddress) : compare a.display b.display = compare a b := by
  change (if a.display < b.display then Ordering.lt
    else if a.display = b.display then .eq else .gt) = compare a b
  cases hcompare : compare a b with
  | lt => exact if_pos (display_lt_iff.2 (compare_eq_lt.1 hcompare))
  | eq =>
    obtain rfl := Std.LawfulEqOrd.eq_of_compare hcompare
    rw [if_neg (String.lt_irrefl _), if_pos rfl]
  | gt =>
    have hbehind : b.display < a.display :=
      display_lt_iff.2 (compare_eq_lt.1 (Std.OrientedCmp.lt_of_gt hcompare))
    have hne : a.display ≠ b.display := fun heq => String.lt_irrefl _ (heq ▸ hbehind)
    rw [if_neg (String.lt_asymm hbehind), if_neg hne]

/-! ## Ascending addresses -/

/-- The octets never descend; the repetitions of an address stand together. -/
def Ascending (macs : List MacAddress) : Prop :=
  macs.Pairwise fun a b => a.octets ≤ b.octets

/-- The addresses come up in the order in which another list brings them up first. -/
structure Follows (macs order : List MacAddress) : Prop where
  subset : macs ⊆ order
  order : macs.Pairwise fun a b => a = b ∨ order.idxOf a < order.idxOf b

variable {macs order : List MacAddress} {a b : MacAddress}

theorem eq_of_octets (h : a.octets = b.octets) : a = b := by
  cases a
  cases b
  cases h
  rfl

theorem lt_of_le_of_ne (hle : a.octets ≤ b.octets) (hne : a ≠ b) : a.octets < b.octets :=
  (List.le_iff_lt_or_eq.1 hle).resolve_right fun heq => hne (eq_of_octets heq)

theorem Ascending.idxOf_lt (h : Ascending order) (ha : a ∈ order) (hb : b ∈ order)
    (hlt : a.octets < b.octets) : order.idxOf a < order.idxOf b := by
  have hia := List.idxOf_lt_length_iff.2 ha
  have hib := List.idxOf_lt_length_iff.2 hb
  rcases Nat.lt_trichotomy (order.idxOf a) (order.idxOf b) with hindex | hindex | hindex
  · exact hindex
  · obtain rfl := List.idxOf_inj ha |>.1 hindex
    exact absurd hlt (List.lt_irrefl _)
  · have hle := List.pairwise_iff_getElem.1 h _ _ hib hia hindex
    rw [List.getElem_idxOf, List.getElem_idxOf] at hle
    exact absurd hlt (List.not_lt.2 hle)

theorem Ascending.follows (h : Ascending macs) (horder : Ascending order)
    (hsubset : macs ⊆ order) : Follows macs order where
  subset := hsubset
  order := h.imp_of_mem fun {a b} ha hb hle => by
    by_cases heq : a = b
    · exact .inl heq
    · exact .inr (horder.idxOf_lt (hsubset ha) (hsubset hb) (lt_of_le_of_ne hle heq))

end MacAddress

/-! ## Sections with results -/

namespace Fleet

/-- The places of rows ascend in their devices. -/
theorem ascending_of_before {places : List (MacAddress × UInt8)} (h : places.Pairwise Before) :
    MacAddress.Ascending (places.map Prod.fst) := by
  refine List.pairwise_map.2 (h.imp ?_)
  rintro a b (hlt | ⟨heq, -⟩)
  · exact List.le_of_lt hlt
  · rw [heq]
    exact List.le_refl _

end Fleet

namespace Fleets

/-- Only these devices have stores. -/
structure Among (fleets : Fleets) (macs : List MacAddress) : Prop where
  rxMer : ∀ mac ∈ fleets.rxMer, mac ∈ macs
  fec : ∀ mac ∈ fleets.fec, mac ∈ macs

variable {macs : List MacAddress} {fleets : Fleets}

theorem mem_of_mem_add {α : Type} [CaptureRecord α] {fleet : Fleet α} {mac other : MacAddress}
    {r : α} (h : other ∈ fleet.add mac r) : other = mac ∨ other ∈ fleet := by
  unfold Fleet.add at h
  rw [Std.ExtTreeMap.mem_alter] at h
  split at h
  · rename_i heq
    exact .inl (Std.LawfulEqOrd.eq_of_compare heq).symm
  · exact .inr h

theorem Among.empty : Among .empty macs where
  rxMer _ hmac := absurd hmac Std.ExtTreeMap.not_mem_empty
  fec _ hmac := absurd hmac Std.ExtTreeMap.not_mem_empty

/-- An entry touches the store of its own device only, whatever its bytes decode to. -/
theorem Among.add (h : fleets.Among macs) {e : IndexEntry} (he : e.mac ∈ macs) :
    (fleets.add e).Among macs := by
  unfold Fleets.add
  split
  · refine ⟨fun mac hmac => ?_, h.fec⟩
    rcases mem_of_mem_add hmac with rfl | hold
    · exact he
    · exact h.rxMer mac hold
  · refine ⟨h.rxMer, fun mac hmac => ?_⟩
    rcases mem_of_mem_add hmac with rfl | hold
    · exact he
    · exact h.fec mac hold
  · exact h

theorem Among.foldl_add (h : fleets.Among macs) {entries : List IndexEntry}
    (hentries : ∀ e ∈ entries, e.mac ∈ macs) : (entries.foldl Fleets.add fleets).Among macs := by
  induction entries generalizing fleets with
  | nil => exact h
  | cons e rest ih =>
    obtain ⟨he, hrest⟩ := List.forall_mem_cons.1 hentries
    exact ih (h.add he) hrest

end Fleets

namespace Report

theorem ascending_fecRows (fleet : Fleet FecSummary) :
    MacAddress.Ascending ((fecRows fleet).map FecRow.mac) := by
  have hplaces : ((fecRows fleet).map fun row => (row.mac, row.channel)).Pairwise Fleet.Before :=
    pairwise_fecRows
  have h := Fleet.ascending_of_before hplaces
  rwa [List.map_map] at h

theorem ascending_attributed (fleet : Fleet RxMer) (places : UInt32) :
    MacAddress.Ascending ((attributed fleet places).map Prod.fst) := by
  have h := Fleet.ascending_of_before (pairwise_attributed fleet places)
  rwa [List.map_map] at h

theorem mem_of_mem_fecRows {fleet : Fleet FecSummary} {row : FecRow} (h : row ∈ fecRows fleet) :
    row.mac ∈ fleet := by
  obtain ⟨store, hstore, -⟩ := Option.bind_eq_some_iff.1 (mem_fecRows.1 h)
  exact Std.ExtTreeMap.mem_iff_isSome_getElem?.2 (Option.isSome_of_eq_some hstore)

theorem mem_of_mem_attributed {fleet : Fleet RxMer} {places : UInt32} {row : MacAddress × Envelope}
    (h : row ∈ attributed fleet places) : row.1 ∈ fleet := by
  obtain ⟨store, hstore, -⟩ := Option.bind_eq_some_iff.1 (mem_attributed.1 ⟨h, rfl⟩)
  exact Std.ExtTreeMap.mem_iff_isSome_getElem?.2 (Option.isSome_of_eq_some hstore)

end Report

/-! ## Indexes -/

namespace CaptureIndex

variable {index : CaptureIndex} {stages : List Stage}

theorem macs_mapEntries (f : List IndexEntry → List IndexEntry) (index : CaptureIndex) :
    (index.mapEntries f).macs = index.macs := by
  simp [macs, mapEntries, Function.comp_def]

/-- Wherever the stage stands that sorts devices, the devices end up sorted. -/
theorem ascending_macs (hsorted : .sortByMac ∈ stages) :
    MacAddress.Ascending (index.applyStages stages).macs := by
  obtain ⟨devices, harranged, -, hdevices⟩ := exists_arrangement stages index
  rw [if_pos hsorted] at hdevices
  rw [harranged, macs_mapEntries]
  exact List.pairwise_map.2 hdevices

theorem WellFormed.strictly_ascending (h : index.WellFormed)
    (hmacs : MacAddress.Ascending index.macs) :
    index.macs.Pairwise fun a b => a.octets < b.octets :=
  (hmacs.and h.nodup).imp fun ⟨hle, hne⟩ => MacAddress.lt_of_le_of_ne hle hne

/-- A device has a row for each of its channels, and all of them where the device stands. -/
theorem map_mac_summary [Calendar] (index : CaptureIndex) :
    index.summary.map SummaryRow.mac =
      index.devices.flatMap fun device => List.replicate device.channels.length device.mac := by
  unfold summary
  rw [List.map_flatMap]
  refine List.flatMap_congr fun device _ => ?_
  rw [List.map_map, ← List.map_const]
  rfl

theorem ascending_summary [Calendar] (h : MacAddress.Ascending index.macs) :
    MacAddress.Ascending (index.summary.map SummaryRow.mac) := by
  unfold MacAddress.Ascending
  rw [map_mac_summary, List.pairwise_flatMap]
  constructor
  · intro device _
    exact List.pairwise_replicate.2 (.inr (List.le_refl _))
  · refine (List.pairwise_map.1 h).imp fun {device other} hle a ha b hb => ?_
    rw [List.eq_of_mem_replicate ha, List.eq_of_mem_replicate hb]
    exact hle

theorem WellFormed.mem_summary_iff [Calendar] (h : index.WellFormed) {mac : MacAddress} :
    mac ∈ index.summary.map SummaryRow.mac ↔ mac ∈ index.macs := by
  rw [map_mac_summary, List.mem_flatMap, macs, List.mem_map]
  refine exists_congr fun device => and_congr_right fun hdevice => ?_
  -- A device without channels would have no row, but an index has no such device.
  have hfilled : device.channels.length ≠ 0 :=
    mt List.length_eq_zero_iff.1 (h.devices device hdevice).nonempty
  rw [List.mem_replicate, and_iff_right hfilled]
  exact eq_comm

theorem WellFormed.among_ofIndex [Calendar] (h : index.WellFormed) :
    (Fleets.ofIndex index).Among (index.summary.map SummaryRow.mac) := by
  refine Fleets.Among.empty.foldl_add fun e he => h.mem_summary_iff.2 ?_
  obtain ⟨device, hdevice, he⟩ := List.mem_flatMap.1 he
  exact List.mem_map.2 ⟨device, hdevice, ((h.devices device hdevice).mac_of_mem he).symm⟩

end CaptureIndex

/-! ## Main result -/

open CaptureIndex (Step SummaryRow)

/-- Texts of addresses compare as their octets. So whatever was inserted into an index, once its
devices have been sorted they ascend strictly, and the rows of levels and the rows of counters bring
devices up in the order of the rows of channels. A row of levels does not name its device, so these
rows come with their devices here. -/
theorem one_order_of_devices [Calendar] :
    (∀ a b : MacAddress, compare a.display b.display = compare a b) ∧
      ∀ (steps : List Step) (stages : List CaptureIndex.Stage) (places : UInt32),
        .sortByMac ∈ stages →
        let index := (CaptureIndex.run steps).applyStages stages
        let report := Report.ofIndex index places
        let attributed := Report.attributed (Fleets.ofIndex index).rxMer places
        let channels := report.channels.map SummaryRow.mac
        index.macs.Pairwise (fun a b => a.octets < b.octets) ∧
          MacAddress.Follows channels index.macs ∧
          MacAddress.Follows (report.fec.map FecRow.mac) channels ∧
          report.rxMer = attributed.map Prod.snd ∧
          MacAddress.Follows (attributed.map Prod.fst) channels := by
  refine ⟨MacAddress.compare_display, ?_⟩
  intro steps stages places hsorted index report attributed channels
  have hwf : index.WellFormed := (CaptureIndex.WellFormed.run steps).applyStages stages
  have hmacs : MacAddress.Ascending index.macs := CaptureIndex.ascending_macs hsorted
  have hchannels : MacAddress.Ascending channels := CaptureIndex.ascending_summary hmacs
  have hamong := hwf.among_ofIndex
  refine ⟨hwf.strictly_ascending hmacs, ?_, ?_, Report.envelopes_eq_map_attributed _ _, ?_⟩
  · exact hchannels.follows hmacs fun mac => hwf.mem_summary_iff.1
  · refine (Report.ascending_fecRows _).follows hchannels ?_
    exact List.forall_mem_map.2 fun row hrow => hamong.fec _ (Report.mem_of_mem_fecRows hrow)
  · refine (Report.ascending_attributed _ _).follows hchannels ?_
    exact List.forall_mem_map.2 fun row hrow =>
      hamong.rxMer _ (Report.mem_of_mem_attributed hrow)

/-- Levels of two devices and counters of two devices, the greatest address first. -/
def descendingSteps : List Step :=
  (CaptureIndex.accepted [("three.bin", emptySummaryFile 3 2), ("two.bin", levelFile 2 [160]),
    ("counters.bin", emptySummaryFile 1 2), ("one.bin", levelFile 1 [150])]).map .insert

theorem descending_devices_in_order :
    let index := (CaptureIndex.run descendingSteps).applyStages [.sortByMac, .sortByKind]
    let report := Report.ofIndex index 2
    let attributed := Report.attributed (Fleets.ofIndex index).rxMer 2
    let channels := report.channels.map SummaryRow.mac
    (CaptureIndex.run descendingSteps).macs = [levelDevice 3, levelDevice 2, levelDevice 1] ∧
      (Fleets.ofIndex (.run descendingSteps)).fec.keys = [levelDevice 1, levelDevice 3] ∧
      (Fleets.ofIndex (.run descendingSteps)).rxMer.keys = [levelDevice 1, levelDevice 2] ∧
      index.macs.Pairwise (fun a b => a.octets < b.octets) ∧
      MacAddress.Follows (report.fec.map FecRow.mac) channels ∧
      MacAddress.Follows (attributed.map Prod.fst) channels := by
  obtain ⟨hmacs, -, hfec, -, hlevels⟩ :=
    one_order_of_devices.2 descendingSteps [.sortByMac, .sortByKind] 2 (by decide)
  exact ⟨by decide +kernel, by decide +kernel, by decide +kernel, hmacs, hfec, hlevels⟩

end CableCapture
