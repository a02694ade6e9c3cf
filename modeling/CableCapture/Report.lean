import CableCapture.CaptureIndex
import CableCapture.CaptureStore

/-!
# Reports

Every capture of an index that decodes to an RxMER or a FEC record goes into the store of its device.
The report lists the channels of the index, the envelope of each channel with RxMER captures and the
counters of each channel with FEC summaries, devices and channels ascending.
-/

namespace CableCapture

-- ---------------------------------------------------------------------------
-- Stores by device
-- ---------------------------------------------------------------------------

/-- A store for every device. -/
abbrev Fleet (α : Type) := Std.ExtTreeMap MacAddress (CaptureStore α)

namespace Fleet

variable {α : Type}

/-- Offers a capture to the store of a device, which keeps what the offer leaves of it. -/
def add [CaptureRecord α] (fleet : Fleet α) (mac : MacAddress) (capture : α) : Fleet α :=
  fleet.alter mac fun store? =>
    match (CaptureStore.submit capture).run (store?.getD .empty) with
    | .ok _ after => some after
    | .error _ after => some after

/-- Every device with every channel of its store, both ascending. -/
def channels (fleet : Fleet α) : List (MacAddress × CaptureStore α × UInt8) :=
  fleet.toList.flatMap fun (mac, store) => store.channels.map fun channel => (mac, store, channel)

end Fleet

/-- The stores of all devices. -/
structure Fleets where
  rxMer : Fleet RxMer
  fec : Fleet FecSummary

namespace Fleets

def empty : Fleets := ⟨∅, ∅⟩

/-- Files the capture of an entry under the entry's device. Entries that do not decode, and captures
of other kinds, are left out. -/
def add (fleets : Fleets) (e : IndexEntry) : Fleets :=
  match e.decode with
  | .ok (.rxMer record) => { fleets with rxMer := fleets.rxMer.add e.mac record }
  | .ok (.fecSummary record) => { fleets with fec := fleets.fec.add e.mac record }
  | _ => fleets

/-- The stores of an index, filled in its order. -/
def ofIndex (index : CaptureIndex) : Fleets :=
  index.toList.foldl add empty

end Fleets

-- ---------------------------------------------------------------------------
-- Reports
-- ---------------------------------------------------------------------------

structure FecRow where
  mac : MacAddress
  channel : UInt8
  totals : FecTotals

structure Report where
  captureCount : Nat
  channels : List CaptureIndex.SummaryRow
  rxMer : List Envelope
  fec : List FecRow

namespace Report

/-- The envelopes of all channels whose captures agree in length. -/
def envelopes (fleet : Fleet RxMer) (places : UInt32) : List Envelope :=
  fleet.channels.filterMap fun (_, store, channel) => (store.envelope channel places).toOption

def fecRows (fleet : Fleet FecSummary) : List FecRow :=
  fleet.channels.filterMap fun (mac, store, channel) =>
    (store.totals channel).toOption.map fun totals => { mac, channel, totals }

/-- The report of an index, with results rounded to so many places. -/
def ofIndex [Calendar] (index : CaptureIndex) (places : UInt32) : Report :=
  let fleets := Fleets.ofIndex index
  { captureCount := index.size
    channels := index.summary
    rxMer := envelopes fleets.rxMer places
    fec := fecRows fleets.fec }

end Report

end CableCapture
