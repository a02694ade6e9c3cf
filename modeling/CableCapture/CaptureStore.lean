import CableCapture.Capture
import CableCapture.Envelope

/-!
# Capture stores

The captures of one device, keyed by channel and capture time. The first capture binds the store to
its address; a capture of another device is refused. A capture at a key that is taken replaces the
earlier one.
-/

namespace CableCapture

/-- Keys are ordered by channel and then by time. -/
structure CaptureKey where
  channel : UInt8
  time : UInt32
deriving DecidableEq, Repr

namespace CaptureKey

instance : Ord CaptureKey := ⟨compareLex (compareOn channel) (compareOn time)⟩

instance : Std.TransOrd CaptureKey :=
  inferInstanceAs (Std.TransCmp (compareLex (compareOn channel) (compareOn time)))

instance : Std.LawfulEqOrd CaptureKey where
  eq_of_compare {a b} h := by
    have h : (compare a.channel b.channel).then (compare a.time b.time) = .eq := h
    rw [Ordering.then_eq_eq, Std.LawfulEqOrd.compare_eq_iff_eq,
      Std.LawfulEqOrd.compare_eq_iff_eq] at h
    cases a
    cases b
    simp_all

end CaptureKey

/-- The key of a record. -/
def CaptureRecord.key {α : Type} [CaptureRecord α] (record : α) : CaptureKey :=
  ⟨CaptureRecord.channel record, CaptureRecord.time record⟩

structure CaptureStore (α : Type) where
  /-- The device, once there is a capture. -/
  mac : Option MacAddress
  captures : Std.ExtTreeMap CaptureKey α

namespace CaptureStore

variable {α : Type}

def empty : CaptureStore α := ⟨none, ∅⟩

instance : Inhabited (CaptureStore α) := ⟨empty⟩

/-- Offers a capture to the store. It is refused before anything changes. -/
def submit [CaptureRecord α] (capture : α) : EStateM Fault (CaptureStore α) Unit := do
  let offered := CaptureRecord.mac capture
  match (← get).mac with
  | some held =>
    if held ≠ offered then
      throw (.macMismatch held offered)
  | none => modify fun store => { store with mac := some offered }
  modify fun store =>
    { store with captures := store.captures.insert (CaptureRecord.key capture) capture }

/-- Adds a capture of the store's device. -/
def add [CaptureRecord α] (store : CaptureStore α) (capture : α) :
    Except Fault (CaptureStore α) :=
  match (submit capture).run store with
  | .ok _ added => .ok added
  | .error fault _ => .error fault

/-- The store after a capture was offered to it, taken or not. -/
def offer [CaptureRecord α] (store : CaptureStore α) (capture : α) : CaptureStore α :=
  match (submit capture).run store with
  | .ok _ after => after
  | .error _ after => after

-- ---------------------------------------------------------------------------
-- Queries
-- ---------------------------------------------------------------------------

/-- The keys and captures of a channel, ascending in time. -/
def entries (store : CaptureStore α) (channel : UInt8) : List (CaptureKey × α) :=
  store.captures.toList.filter fun entry => entry.1.channel = channel

/-- The channels with a capture, ascending. -/
def channels (store : CaptureStore α) : List UInt8 :=
  (store.captures.keys.map CaptureKey.channel).eraseDups

/-- The captures of a channel, ascending in time. -/
def ofChannel (store : CaptureStore α) (channel : UInt8) : List α :=
  (store.entries channel).map Prod.snd

/-- The capture times of a channel, ascending. -/
def times (store : CaptureStore α) (channel : UInt8) : List UInt32 :=
  (store.entries channel).map fun entry => entry.1.time

def size (store : CaptureStore α) : Nat := store.captures.size

def isEmpty (store : CaptureStore α) : Bool := store.size = 0

/-- The captures of a channel that has one. -/
def require (store : CaptureStore α) (channel : UInt8) : Except Fault (List α) :=
  match store.ofChannel channel with
  | [] => .error (.channelNotFound channel)
  | captures => .ok captures

-- ---------------------------------------------------------------------------
-- Results
-- ---------------------------------------------------------------------------

/-- A capture that reduces to one number for each subcarrier. -/
class HasSeries (α : Type) where
  series : α → List Float

instance : HasSeries RxMer := ⟨RxMer.levels⟩

instance [Modulus] : HasSeries ChannelEstimate := ⟨ChannelEstimate.levels⟩

/-- The envelope of a channel's captures. -/
def envelope [HasSeries α] (store : CaptureStore α) (channel : UInt8) (places : UInt32) :
    Except Fault Envelope := do
  let captures ← store.require channel
  Envelope.compute channel places (captures.map HasSeries.series)

/-- The counters of a channel's summaries, added up by profile. -/
def totals (store : CaptureStore FecSummary) (channel : UInt8) : Except Fault FecTotals := do
  let summaries ← store.require channel
  return summaries.foldl (fun totals summary => totals.merge summary.totals) ∅

end CaptureStore

end CableCapture
