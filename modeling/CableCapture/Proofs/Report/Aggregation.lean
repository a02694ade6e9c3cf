import CableCapture.Proofs.Report.Fleet

/-!
# What an index puts into its fleets

The identity of an entry names the device that its record names too. So every store is offered
records of its own device alone and takes them all, and a fleet ends up with the last record of every
device, channel and time.
-/

namespace CableCapture

/-! ## One fleet -/

namespace Fleet

variable {α : Type} [CaptureRecord α]

/-- The store of a device, an empty one if there is none yet. -/
def storeAt (fleet : Fleet α) (mac : MacAddress) : CaptureStore α :=
  fleet[mac]?.getD .empty

/-- What a fleet holds once the picked records of these entries are filed. -/
structure Collects (fleet : Fleet α) (pick : IndexEntry → Option α) (entries : List IndexEntry) :
    Prop where
  /-- The devices with a store are those of the entries with a record. -/
  mem_iff : ∀ mac, mac ∈ fleet ↔ ∃ e ∈ entries, e.mac = mac ∧ ∃ r, pick e = some r
  /-- A store is bound to the device under which it is found. -/
  bound : ∀ mac (store : CaptureStore α), fleet[mac]? = some store → store.mac = some mac
  /-- At each place is the last of the records that compete for it. -/
  latest : ∀ mac key,
    (fleet[mac]?.bind fun store => store.captures[key]?) =
      (slot (entries.filterMap pick) mac key).getLast?

theorem storeOf_isSome {mac : MacAddress} {records : List α} :
    (storeOf mac records).isSome ↔ records ≠ [] := by
  cases records with
  | nil => simp [storeOf]
  | cons r rest => simp [storeOf]

theorem mem_ofRecords {records : List α} {mac : MacAddress} :
    mac ∈ ofRecords records ↔ ∃ r ∈ records, CaptureRecord.mac r = mac := by
  rw [Std.ExtTreeMap.mem_iff_isSome_getElem?, getElem?_ofRecords, storeOf_isSome, ne_eq,
    List.filter_eq_nil_iff]
  simp only [decide_eq_true_eq, not_forall, not_not, exists_prop]

theorem storeOf_bind_captures {mac : MacAddress} {records : List α} {key : CaptureKey} :
    ((storeOf mac records).bind fun store => store.captures[key]?) =
      (CaptureStore.latest records)[key]? := by
  cases records with
  | nil => exact Std.ExtTreeMap.getElem?_empty.symm
  | cons r rest => rfl

theorem mac_of_storeOf {mac : MacAddress} {records : List α} {store : CaptureStore α}
    (h : storeOf mac records = some store) : store.mac = some mac := by
  cases records with
  | nil => cases h
  | cons r rest => rw [← Option.some.inj h]

/-- A fleet of captures takes a further one at its own device. -/
theorem add_storeAt_ofRecords (records : List α) {r : α} {mac : MacAddress}
    (hr : CaptureRecord.mac r = mac) :
    ∃ added, ((ofRecords records).storeAt mac).add r = .ok added := by
  unfold storeAt
  rw [getElem?_ofRecords]
  exact ⟨_, add_storeOf hr⟩

/-- Where entries carry the identities of their records, the fleet of the records is that of the
entries. -/
theorem collects_ofRecords {kind : CaptureKind} {pick : IndexEntry → Option α}
    {entries : List IndexEntry}
    (h : ∀ e ∈ entries, ∀ r, pick e = some r → identityOf kind r = e.identity) :
    (ofRecords (entries.filterMap pick)).Collects pick entries where
  mem_iff mac := by
    rw [mem_ofRecords]
    constructor
    · rintro ⟨r, hr, rfl⟩
      obtain ⟨e, he, hpick⟩ := List.mem_filterMap.1 hr
      exact ⟨e, he, (congrArg Identity.mac (h e he r hpick)).symm, r, hpick⟩
    · rintro ⟨e, he, rfl, r, hpick⟩
      exact ⟨r, List.mem_filterMap.2 ⟨e, he, hpick⟩, congrArg Identity.mac (h e he r hpick)⟩
  bound mac store hstore := by
    rw [getElem?_ofRecords] at hstore
    exact mac_of_storeOf hstore
  latest mac key := by
    rw [getElem?_ofRecords, storeOf_bind_captures, CaptureStore.getElem?_latest]
    rfl

end Fleet

/-! ## Both fleets -/

namespace Fleets

/-- Both fleets hold what these entries decode to. -/
structure Collect (fleets : Fleets) (entries : List IndexEntry) : Prop where
  rxMer : fleets.rxMer.Collects IndexEntry.rxMer? entries
  fec : fleets.fec.Collects IndexEntry.fec? entries

/-- The store of an entry's device takes what the entry decodes to. -/
structure Take (fleets : Fleets) (e : IndexEntry) : Prop where
  rxMer : ∀ r, e.decode = .ok (.rxMer r) → ∃ added, (fleets.rxMer.storeAt e.mac).add r = .ok added
  fec : ∀ r, e.decode = .ok (.fecSummary r) →
    ∃ added, (fleets.fec.storeAt e.mac).add r = .ok added

theorem collect_of_filed {entries : List IndexEntry} (h : ∀ e ∈ entries, e.Filed) :
    (entries.foldl add empty).Collect entries := by
  rw [foldl_add_of_filed h]
  exact ⟨Fleet.collects_ofRecords fun e he r => (h e he).rxMer,
    Fleet.collects_ofRecords fun e he r => (h e he).fec⟩

theorem take_of_filed {entries : List IndexEntry} (h : ∀ e ∈ entries, e.Filed) {e : IndexEntry}
    (he : e.Filed) : (entries.foldl add empty).Take e := by
  have hmac : ∀ c, e.decode = .ok c → c.mac = e.mac := fun c hdecode =>
    congrArg Identity.mac (he c hdecode).1
  rw [foldl_add_of_filed h]
  exact {
    rxMer := fun r hdecode => Fleet.add_storeAt_ofRecords _ (hmac _ hdecode)
    fec := fun r hdecode => Fleet.add_storeAt_ofRecords _ (hmac _ hdecode) }

theorem add_of_none {e : IndexEntry} (hrxMer : e.rxMer? = none) (hfec : e.fec? = none)
    (fleets : Fleets) : fleets.add e = fleets := by
  unfold IndexEntry.rxMer? at hrxMer
  unfold IndexEntry.fec? at hfec
  unfold add
  split
  · rename_i r hdecode
    rw [hdecode] at hrxMer
    cases hrxMer
  · rename_i r hdecode
    rw [hdecode] at hfec
    cases hfec
  · rfl

/-- Entries without a record for a fleet might as well be missing. -/
theorem foldl_add_filter (entries : List IndexEntry) (fleets : Fleets) :
    (entries.filter fun e => e.rxMer?.isSome || e.fec?.isSome).foldl add fleets =
      entries.foldl add fleets := by
  rw [List.foldl_filter]
  congr 1
  funext fleets e
  split
  · rfl
  · rename_i hnone
    rw [Bool.or_eq_true, not_or, Option.not_isSome_iff_eq_none,
      Option.not_isSome_iff_eq_none] at hnone
    exact (add_of_none hnone.1 hnone.2 fleets).symm

end Fleets

/-- Whatever the files and the stages, every step of filling the fleets is accepted by the store that
it concerns, and what they hold then is the last record of each device, channel and time. Entries
without such a record make no difference. -/
theorem fleets_collect_all_records (files : List (String × List UInt8))
    (stages : List CaptureIndex.Stage) :
    let index := (CaptureIndex.ofFiles files).applyStages stages
    (Fleets.ofIndex index).Collect index.toList ∧
      (∀ before e after, index.toList = before ++ e :: after →
        (before.foldl Fleets.add .empty).Collect before ∧
          (before.foldl Fleets.add .empty).Take e) ∧
      Fleets.ofIndex index =
        (index.toList.filter fun e => e.rxMer?.isSome || e.fec?.isSome).foldl Fleets.add .empty := by
  intro index
  have hperm : index.toList.Perm (CaptureIndex.ofFiles files).toList :=
    CaptureIndex.toList_applyStages_perm stages
  have hfiled : ∀ e ∈ index.toList, e.Filed := fun e he =>
    CaptureIndex.filed_of_mem_ofFiles (hperm.mem_iff.1 he)
  refine ⟨Fleets.collect_of_filed hfiled, ?_, (Fleets.foldl_add_filter _ _).symm⟩
  intro before e after hsplit
  rw [hsplit] at hfiled
  obtain ⟨hbefore, hrest⟩ := List.forall_mem_append.1 hfiled
  exact ⟨Fleets.collect_of_filed hbefore,
    Fleets.take_of_filed hbefore (hrest e List.mem_cons_self)⟩

/-- A summary of channel 3 without profiles, for a device with this last octet. -/
def emptySummaryFile (octet period : UInt8) : List UInt8 :=
  [0x50, 0x4E, 0x4E, 8, 1, 0, 3, 2, 0, 0, 0, 0, octet, period, 0]

-- the last file replaces the first one, which has its device, channel and time
example :
    let files := [("first.bin", emptySummaryFile 1 2), ("other.bin", emptySummaryFile 2 2),
      ("last.bin", emptySummaryFile 1 3)]
    let fleet := (Fleets.ofIndex (.ofFiles files)).fec
    fleet.values.map (fun store => (store.ofChannel 3).map FecSummary.period) =
      [[.twentyFourHours], [.tenMinutes]] := by
  decide +kernel

end CableCapture
