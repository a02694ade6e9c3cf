import CableCapture.Proofs.Index.Channels
import CableCapture.Proofs.Report.Fleet
import CableCapture.Proofs.Store.Envelopes
import CableCapture.Proofs.Store.Survivors
import CableCapture.Proofs.Text.Addresses

/-!
# Rows of a report

Both sections of results go through the channels of a fleet, devices and channels ascending, and have
a row wherever a result comes out. A row of levels does not name its device, so these rows are listed
with their devices here.
-/

namespace CableCapture

/-! ## Channels of a fleet -/

namespace Fleet

/-- Places of rows, by the octets of the device and then by the channel. -/
def Before (a b : MacAddress × UInt8) : Prop :=
  a.1.octets < b.1.octets ∨ a.1 = b.1 ∧ a.2 < b.2

section Channels

variable {α β : Type} {fleet : Fleet α} {mac : MacAddress} {store : CaptureStore α} {channel : UInt8}

theorem mem_channels :
    (mac, store, channel) ∈ fleet.channels ↔
      fleet[mac]? = some store ∧ channel ∈ store.channels := by
  unfold channels
  simp only [List.mem_flatMap, List.mem_map, Prod.exists, Prod.mk.injEq,
    Std.ExtTreeMap.mem_toList_iff_getElem?_eq_some]
  constructor
  · rintro ⟨m, s, hstore, c, hchannel, rfl, rfl, rfl⟩
    exact ⟨hstore, hchannel⟩
  · rintro ⟨hstore, hchannel⟩
    exact ⟨mac, store, hstore, channel, hchannel, rfl, rfl, rfl⟩

theorem pairwise_channels (fleet : Fleet α) :
    fleet.channels.Pairwise fun a b => Before (a.1, a.2.2) (b.1, b.2.2) := by
  unfold channels
  rw [List.pairwise_flatMap]
  constructor
  · rintro ⟨mac, store⟩ -
    exact List.pairwise_map.2 (store.pairwise_channels.imp fun hlt => .inr ⟨rfl, hlt⟩)
  · refine (Std.ExtTreeMap.ordered_keys_toList (t := fleet)).imp fun {a b} hlt x hx y hy => ?_
    obtain ⟨c, -, rfl⟩ := List.mem_map.1 hx
    obtain ⟨d, -, rfl⟩ := List.mem_map.1 hy
    exact .inl (MacAddress.compare_eq_lt.1 hlt)

/-! ### Rows that name their place -/

variable {row : MacAddress × CaptureStore α × UInt8 → Option β} (place : β → MacAddress × UInt8)
  (hplace : ∀ mac store channel b, row (mac, store, channel) = some b → place b = (mac, channel))
include hplace

theorem pairwise_rows : ((fleet.channels.filterMap row).map place).Pairwise Before := by
  rw [List.pairwise_map, List.pairwise_filterMap]
  refine fleet.pairwise_channels.imp fun {x y} hbefore b hb c hc => ?_
  rwa [hplace x.1 x.2.1 x.2.2 b hb, hplace y.1 y.2.1 y.2.2 c hc]

theorem mem_rows {b : β} :
    b ∈ fleet.channels.filterMap row ↔
      ∃ store, fleet[(place b).1]? = some store ∧ (place b).2 ∈ store.channels ∧
        row ((place b).1, store, (place b).2) = some b := by
  rw [List.mem_filterMap]
  constructor
  · rintro ⟨⟨mac, store, channel⟩, hmem, hrow⟩
    rw [hplace mac store channel b hrow]
    obtain ⟨hstore, hchannel⟩ := mem_channels.1 hmem
    exact ⟨store, hstore, hchannel, hrow⟩
  · rintro ⟨store, hstore, hchannel, hrow⟩
    exact ⟨_, mem_channels.2 ⟨hstore, hchannel⟩, hrow⟩

end Channels

/-! ### Results -/

/-- The envelope of a device's channel, if one comes out. -/
def envelope? (fleet : Fleet RxMer) (mac : MacAddress) (channel : UInt8) (places : UInt32) :
    Option Envelope :=
  fleet[mac]?.bind fun store => (store.envelope channel places).toOption

/-- The counters of a device's channel, if there are any. -/
def totals? (fleet : Fleet FecSummary) (mac : MacAddress) (channel : UInt8) : Option FecTotals :=
  fleet[mac]?.bind fun store => (store.totals channel).toOption

end Fleet

namespace Report

/-- The rows of levels with their devices. -/
def attributed (fleet : Fleet RxMer) (places : UInt32) : List (MacAddress × Envelope) :=
  fleet.channels.filterMap fun (mac, store, channel) =>
    (store.envelope channel places).toOption.map fun row => (mac, row)

theorem envelopes_eq_map_attributed (fleet : Fleet RxMer) (places : UInt32) :
    envelopes fleet places = (attributed fleet places).map Prod.snd := by
  unfold envelopes attributed
  rw [List.map_filterMap]
  simp only [Option.map_map, Function.comp_def, Option.map_id']

section Attributed

variable {fleet : Fleet RxMer} {places : UInt32}

theorem place_of_attributed {mac : MacAddress} {store : CaptureStore RxMer} {channel : UInt8}
    {row : MacAddress × Envelope}
    (h : ((store.envelope channel places).toOption.map fun row => (mac, row)) = some row) :
    (row.1, row.2.channel) = (mac, channel) := by
  obtain ⟨found, hfound, rfl⟩ := Option.map_eq_some_iff.1 h
  rw [(CaptureStore.of_envelope (toOption_eq_some.1 hfound)).1]

theorem pairwise_attributed (fleet : Fleet RxMer) (places : UInt32) :
    ((attributed fleet places).map fun row => (row.1, row.2.channel)).Pairwise Fleet.Before :=
  Fleet.pairwise_rows _ fun _ _ _ _ => place_of_attributed

theorem mem_attributed {mac : MacAddress} {channel : UInt8} {row : Envelope} :
    (mac, row) ∈ attributed fleet places ∧ row.channel = channel ↔
      fleet.envelope? mac channel places = some row := by
  unfold attributed
  rw [Fleet.mem_rows (fun row => (row.1, row.2.channel)) fun _ _ _ _ => place_of_attributed]
  unfold Fleet.envelope?
  simp only [Option.map_eq_some_iff, Prod.mk.injEq, true_and, exists_eq_right,
    Option.bind_eq_some_iff, toOption_eq_some]
  constructor
  · rintro ⟨⟨store, hstore, -, hrow⟩, rfl⟩
    exact ⟨store, hstore, hrow⟩
  · rintro ⟨store, hstore, hrow⟩
    obtain ⟨rfl, hchannel, -⟩ := CaptureStore.of_envelope hrow
    exact ⟨⟨store, hstore, hchannel, hrow⟩, rfl⟩

end Attributed

section FecRows

variable {fleet : Fleet FecSummary}

theorem place_of_fecRow {mac : MacAddress} {store : CaptureStore FecSummary} {channel : UInt8}
    {row : FecRow}
    (h : ((store.totals channel).toOption.map fun totals => FecRow.mk mac channel totals) =
      some row) : (row.mac, row.channel) = (mac, channel) := by
  obtain ⟨totals, -, rfl⟩ := Option.map_eq_some_iff.1 h
  rfl

theorem pairwise_fecRows :
    ((fecRows fleet).map fun row => (row.mac, row.channel)).Pairwise Fleet.Before :=
  Fleet.pairwise_rows _ fun _ _ _ _ => place_of_fecRow

theorem mem_fecRows {mac : MacAddress} {channel : UInt8} {totals : FecTotals} :
    ⟨mac, channel, totals⟩ ∈ fecRows fleet ↔ fleet.totals? mac channel = some totals := by
  unfold fecRows
  rw [Fleet.mem_rows (fun row : FecRow => (row.mac, row.channel)) fun _ _ _ _ => place_of_fecRow]
  unfold Fleet.totals?
  simp only [Option.map_eq_some_iff, FecRow.mk.injEq, true_and, exists_eq_right,
    Option.bind_eq_some_iff, toOption_eq_some]
  constructor
  · rintro ⟨store, hstore, -, htotals⟩
    exact ⟨store, hstore, htotals⟩
  · rintro ⟨store, hstore, htotals⟩
    exact ⟨store, hstore, CaptureStore.exists_totals_eq_ok.1 ⟨totals, htotals⟩, htotals⟩

end FecRows

end Report

end CableCapture
