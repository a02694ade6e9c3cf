import CableCapture.Capture
import CableCapture.Timestamp

/-!
# Capture indexes

Files are grouped by device and, within a device, by channel. Groups and entries keep the order in
which they were first seen until a stage reorders them. A file that cannot be identified, or whose
address was never filled in, has no entry.
-/

namespace CableCapture

-- ---------------------------------------------------------------------------
-- Entries
-- ---------------------------------------------------------------------------

/-- A file with its identity. -/
structure IndexEntry where
  fileName : String
  identity : Identity
  bytes : List UInt8
deriving DecidableEq, Repr

namespace IndexEntry

def mac (e : IndexEntry) : MacAddress := e.identity.mac

def channel (e : IndexEntry) : UInt8 := e.identity.channel

def kind (e : IndexEntry) : CaptureKind := e.identity.kind

def time (e : IndexEntry) : UInt32 := e.identity.captureTime

/-- The entry of a file, from its header and the fields in front of its payload. -/
def ofFile (fileName : String) (bytes : List UInt8) : Except Fault IndexEntry := do
  let header ← Header.parse bytes
  let identity ← Identity.ofHeader header
  if identity.mac.isUnset then
    throw (.corrupted (.unsetMac fileName))
  else
    return { fileName, identity, bytes }

/-- The whole capture. -/
def decode (e : IndexEntry) : Except Fault Capture := Capture.ofBytes e.bytes

end IndexEntry

-- ---------------------------------------------------------------------------
-- Groups
-- ---------------------------------------------------------------------------

structure ChannelGroup where
  channel : UInt8
  entries : List IndexEntry
deriving DecidableEq, Repr

/-- Puts an entry at the end of its channel's group, or of a new one behind the others. -/
def ChannelGroup.insert (e : IndexEntry) : List ChannelGroup → List ChannelGroup
  | [] => [⟨e.channel, [e]⟩]
  | g :: rest =>
    if g.channel = e.channel then ⟨g.channel, g.entries ++ [e]⟩ :: rest
    else g :: ChannelGroup.insert e rest

structure DeviceGroup where
  mac : MacAddress
  channels : List ChannelGroup
deriving DecidableEq, Repr

/-- Puts an entry into its device's group, or into a new one behind the others. -/
def DeviceGroup.insert (e : IndexEntry) : List DeviceGroup → List DeviceGroup
  | [] => [⟨e.mac, ChannelGroup.insert e []⟩]
  | g :: rest =>
    if g.mac = e.mac then ⟨g.mac, ChannelGroup.insert e g.channels⟩ :: rest
    else g :: DeviceGroup.insert e rest

structure CaptureIndex where
  devices : List DeviceGroup
deriving DecidableEq, Repr

namespace CaptureIndex

def empty : CaptureIndex := ⟨[]⟩

instance : Inhabited CaptureIndex := ⟨empty⟩

def insert (index : CaptureIndex) (e : IndexEntry) : CaptureIndex :=
  ⟨DeviceGroup.insert e index.devices⟩

def ofEntries (entries : List IndexEntry) : CaptureIndex :=
  entries.foldl insert empty

/-- The index of all files that have an entry. -/
def ofFiles (files : List (String × List UInt8)) : CaptureIndex :=
  ofEntries (files.filterMap fun (name, bytes) => (IndexEntry.ofFile name bytes).toOption)

-- ---------------------------------------------------------------------------
-- Queries
-- ---------------------------------------------------------------------------

def macs (index : CaptureIndex) : List MacAddress :=
  index.devices.map DeviceGroup.mac

/-- The channel groups of a device. -/
def groups (index : CaptureIndex) (mac : MacAddress) : List ChannelGroup :=
  ((index.devices.find? fun g => g.mac = mac).map DeviceGroup.channels).getD []

def channels (index : CaptureIndex) (mac : MacAddress) : List UInt8 :=
  (index.groups mac).map ChannelGroup.channel

def entries (index : CaptureIndex) (mac : MacAddress) (channel : UInt8) : List IndexEntry :=
  (((index.groups mac).find? fun g => g.channel = channel).map ChannelGroup.entries).getD []

/-- All entries in the order of the index. -/
def toList (index : CaptureIndex) : List IndexEntry :=
  index.devices.flatMap fun device => device.channels.flatMap ChannelGroup.entries

def ofKind (index : CaptureIndex) (kind : CaptureKind) : List IndexEntry :=
  index.toList.filter fun e => e.kind = kind

def size (index : CaptureIndex) : Nat := index.toList.length

/-- There is no device. -/
def isEmpty (index : CaptureIndex) : Bool := index.devices.isEmpty

-- ---------------------------------------------------------------------------
-- Stages
-- ---------------------------------------------------------------------------

/-- How an index is reordered. -/
inductive Stage where
  /-- Entries are always grouped by channel, so this changes nothing. -/
  | groupByChannel
  | sortByCaptureTime
  | sortByKind
  /-- Orders the devices by the text of their addresses. -/
  | sortByMac
deriving DecidableEq, Repr

/-- Reorders the entries of every channel. -/
def mapEntries (f : List IndexEntry → List IndexEntry) (index : CaptureIndex) : CaptureIndex :=
  ⟨index.devices.map fun device =>
    { device with channels := device.channels.map fun g => { g with entries := f g.entries } }⟩

/-- Applies one stage; equal keys keep their order. -/
def applyStage (index : CaptureIndex) : Stage → CaptureIndex
  | .groupByChannel => index
  | .sortByCaptureTime =>
    index.mapEntries fun es => es.mergeSort fun a b => a.time ≤ b.time
  | .sortByKind =>
    index.mapEntries fun es => es.mergeSort fun a b => a.kind.rank ≤ b.kind.rank
  | .sortByMac =>
    ⟨index.devices.mergeSort fun a b => a.mac.display ≤ b.mac.display⟩

def applyStages (index : CaptureIndex) (stages : List Stage) : CaptureIndex :=
  stages.foldl applyStage index

-- ---------------------------------------------------------------------------
-- Summary
-- ---------------------------------------------------------------------------

/-- One channel of one device. -/
structure SummaryRow where
  mac : MacAddress
  channel : UInt8
  captureCount : Nat
  /-- The kinds of the channel's captures in the order of the code table. -/
  kinds : List CaptureKind
  /-- The text of the least capture time, unless that is zero. -/
  firstCapture : Option String
  /-- The text of the greatest capture time, unless that is zero. -/
  lastCapture : Option String
deriving DecidableEq, Repr

def SummaryRow.ofGroup [Calendar] (mac : MacAddress) (g : ChannelGroup) : SummaryRow where
  mac := mac
  channel := g.channel
  captureCount := g.entries.length
  kinds := CaptureKind.all.filter fun kind => g.entries.any fun e => e.kind = kind
  firstCapture := (g.entries.map IndexEntry.time).min?.bind Timestamp.text?
  lastCapture := (g.entries.map IndexEntry.time).max?.bind Timestamp.text?

def summary [Calendar] (index : CaptureIndex) : List SummaryRow :=
  index.devices.flatMap fun device => device.channels.map (SummaryRow.ofGroup device.mac)

end CaptureIndex

end CableCapture
