import CableCapture.Proofs.Index.Stages
import CableCapture.Proofs.Store.Runs
import CableCapture.Report

/-!
# What is in a fleet

A fleet holds, for every device that has captures, the last capture filed at each key. So it depends
only on the order of captures that share device, channel and time.
-/

namespace CableCapture

variable {α : Type} [CaptureRecord α]

/-! ## Fleets -/

namespace Fleet

/-- The fleet of captures that are filed under their own devices. -/
def ofRecords (records : List α) : Fleet α :=
  records.foldl (fun fleet r => fleet.add (CaptureRecord.mac r) r) ∅

/-- The store that a device has after it took these captures; none if there are none. -/
def storeOf (mac : MacAddress) : List α → Option (CaptureStore α)
  | [] => none
  | records => some ⟨some mac, CaptureStore.latest records⟩

theorem add_eq (fleet : Fleet α) (mac : MacAddress) (r : α) :
    fleet.add mac r = fleet.alter mac fun store? => some ((store?.getD .empty).offer r) := by
  unfold add CaptureStore.offer
  congr 1
  funext store?
  cases (CaptureStore.submit r).run (store?.getD .empty) with
  | ok _ after => rfl
  | error fault after => rfl

theorem ofRecords_concat (records : List α) (r : α) :
    ofRecords (records ++ [r]) = (ofRecords records).add (CaptureRecord.mac r) r := by
  simp [ofRecords]

theorem storeOf_concat (mac : MacAddress) (records : List α) (r : α) :
    storeOf mac (records ++ [r]) = some ⟨some mac, CaptureStore.latest (records ++ [r])⟩ := by
  cases records with
  | nil => rfl
  | cons first rest => rfl

theorem add_storeOf {mac : MacAddress} {records : List α} {r : α}
    (hr : CaptureRecord.mac r = mac) :
    ((storeOf mac records).getD .empty).add r =
      .ok ⟨some mac, CaptureStore.latest (records ++ [r])⟩ := by
  rw [CaptureStore.latest_concat]
  cases records with
  | nil => exact CaptureStore.add_of_mac_eq rfl hr
  | cons first rest => exact CaptureStore.add_of_mac_eq rfl hr

theorem offer_storeOf {mac : MacAddress} {records : List α} {r : α}
    (hr : CaptureRecord.mac r = mac) :
    ((storeOf mac records).getD .empty).offer r =
      ⟨some mac, CaptureStore.latest (records ++ [r])⟩ := by
  rw [CaptureStore.offer_eq, add_storeOf hr]

theorem getElem?_ofRecords (records : List α) (mac : MacAddress) :
    (ofRecords records)[mac]? =
      storeOf mac (records.filter fun r => CaptureRecord.mac r = mac) := by
  induction records using List.reverseRecOn with
  | nil => exact Std.ExtTreeMap.getElem?_empty
  | append_singleton records r ih =>
    rw [ofRecords_concat, add_eq, Std.ExtTreeMap.getElem?_alter, List.filter_append]
    simp only [Std.LawfulEqOrd.compare_eq_iff_eq]
    by_cases hmac : CaptureRecord.mac r = mac
    · rw [if_pos hmac, hmac, ih]
      rw [offer_storeOf hmac]
      simp [hmac, storeOf_concat]
    · simp [hmac, ih]

/-- The captures that compete for one place in a fleet, in their order. -/
def slot (records : List α) (mac : MacAddress) (key : CaptureKey) : List α :=
  (records.filter fun r => CaptureRecord.mac r = mac).filter fun r => CaptureRecord.key r = key

theorem slot_ne_nil {records : List α} {mac : MacAddress} {r : α}
    (hr : r ∈ records.filter fun r => CaptureRecord.mac r = mac) :
    slot records mac (CaptureRecord.key r) ≠ [] :=
  List.ne_nil_of_mem (List.mem_filter.2 ⟨hr, decide_eq_true rfl⟩)

theorem storeOf_eq_of_slots {records others : List α} {mac : MacAddress}
    (h : ∀ key, slot records mac key = slot others mac key) :
    storeOf mac (records.filter fun r => CaptureRecord.mac r = mac) =
      storeOf mac (others.filter fun r => CaptureRecord.mac r = mac) := by
  have hlatest : CaptureStore.latest (records.filter fun r => CaptureRecord.mac r = mac) =
      CaptureStore.latest (others.filter fun r => CaptureRecord.mac r = mac) := by
    apply Std.ExtTreeMap.ext_getElem?
    intro key
    rw [CaptureStore.getElem?_latest, CaptureStore.getElem?_latest]
    exact congrArg List.getLast? (h key)
  cases hrecords : records.filter fun r => CaptureRecord.mac r = mac with
  | nil =>
    cases hothers : others.filter fun r => CaptureRecord.mac r = mac with
    | nil => rfl
    | cons r rest =>
      apply absurd (h (CaptureRecord.key r)).symm
      rw [slot, slot, hrecords]
      exact slot_ne_nil (hothers ▸ List.mem_cons_self)
  | cons r rest =>
    cases hothers : others.filter fun r => CaptureRecord.mac r = mac with
    | nil =>
      apply absurd (h (CaptureRecord.key r))
      rw [slot, slot, hothers]
      exact slot_ne_nil (hrecords ▸ List.mem_cons_self)
    | cons other others =>
      rw [hrecords, hothers] at hlatest
      simp only [storeOf, hlatest]

/-- Two lists of captures make the same fleet if they agree on the order of those that compete. -/
theorem ofRecords_eq_of_slots {records others : List α}
    (h : ∀ mac key, slot records mac key = slot others mac key) :
    ofRecords records = ofRecords others := by
  apply Std.ExtTreeMap.ext_getElem?
  intro mac
  rw [getElem?_ofRecords, getElem?_ofRecords]
  exact storeOf_eq_of_slots (h mac)

end Fleet

/-! ## Fleets of entries -/

/-- The identity under which a record of some kind is filed. -/
def identityOf (kind : CaptureKind) (r : α) : Identity where
  kind := kind
  channel := CaptureRecord.channel r
  mac := CaptureRecord.mac r
  captureTime := CaptureRecord.time r

theorem identityOf_eq_iff {kind : CaptureKind} {r : α} {mac : MacAddress} {key : CaptureKey} :
    identityOf kind r = ⟨kind, key.channel, mac, key.time⟩ ↔
      CaptureRecord.mac r = mac ∧ CaptureRecord.key r = key := by
  cases key
  simp only [identityOf, CaptureRecord.key, Identity.mk.injEq, CaptureKey.mk.injEq, true_and]
  constructor
  · intro h
    exact ⟨h.2.1, h.1, h.2.2⟩
  · intro h
    exact ⟨h.2.1, h.1, h.2.2⟩

theorem filter_filterMap_of_mem {β γ : Type} {f : β → Option γ} {p : γ → Bool} {q : β → Bool}
    {l : List β} (h : ∀ b ∈ l, ∀ c, f b = some c → p c = q b) :
    (l.filterMap f).filter p = (l.filter q).filterMap f := by
  induction l with
  | nil => rfl
  | cons b rest ih =>
    obtain ⟨hb, hrest⟩ := List.forall_mem_cons.1 h
    cases hf : f b with
    | none =>
      cases hq : q b with
      | true => simp [hf, hq, ih hrest]
      | false => simp [hf, hq, ih hrest]
    | some c =>
      have hpq := hb c hf
      cases hq : q b with
      | true => simp [hf, hq, hpq, ih hrest]
      | false => simp [hf, hq, hpq, ih hrest]

/-- Where records are filed under their own identities, those that compete for a place come from
entries of one identity. -/
theorem Fleet.slot_filterMap {kind : CaptureKind} {pick : IndexEntry → Option α}
    {entries : List IndexEntry}
    (h : ∀ e ∈ entries, ∀ r, pick e = some r → identityOf kind r = e.identity)
    (mac : MacAddress) (key : CaptureKey) :
    Fleet.slot (entries.filterMap pick) mac key =
      (entries.filter fun e => e.identity = ⟨kind, key.channel, mac, key.time⟩).filterMap pick := by
  unfold Fleet.slot
  rw [List.filter_filter]
  apply filter_filterMap_of_mem
  intro e he r hr
  rw [← h e he r hr, Bool.eq_iff_iff, Bool.and_eq_true]
  simp only [decide_eq_true_eq, identityOf_eq_iff]
  exact and_comm

namespace IndexEntry

/-- The RxMER capture of an entry, if it decodes to one. -/
def rxMer? (e : IndexEntry) : Option RxMer :=
  match e.decode with
  | .ok (.rxMer r) => some r
  | _ => none

/-- The FEC summary of an entry, if it decodes to one. -/
def fec? (e : IndexEntry) : Option FecSummary :=
  match e.decode with
  | .ok (.fecSummary r) => some r
  | _ => none

theorem decode_of_rxMer? {e : IndexEntry} {r : RxMer} (h : e.rxMer? = some r) :
    e.decode = .ok (.rxMer r) := by
  unfold rxMer? at h
  split at h
  · rename_i hdecode
    rw [hdecode, Option.some.inj h]
  · cases h

theorem decode_of_fec? {e : IndexEntry} {r : FecSummary} (h : e.fec? = some r) :
    e.decode = .ok (.fecSummary r) := by
  unfold fec? at h
  split at h
  · rename_i hdecode
    rw [hdecode, Option.some.inj h]
  · cases h

theorem Filed.rxMer {e : IndexEntry} (h : e.Filed) {r : RxMer} (hr : e.rxMer? = some r) :
    identityOf .rxMer r = e.identity := by
  obtain ⟨hidentity, hkind⟩ := h _ (decode_of_rxMer? hr)
  rw [← hidentity, ← List.mem_singleton.1 hkind]
  rfl

theorem Filed.fec {e : IndexEntry} (h : e.Filed) {r : FecSummary} (hr : e.fec? = some r) :
    identityOf .fecSummary r = e.identity := by
  obtain ⟨hidentity, hkind⟩ := h _ (decode_of_fec? hr)
  rw [← hidentity, ← List.mem_singleton.1 hkind]
  rfl

end IndexEntry

namespace Fleets

/-- Filing an entry files its record under the record's own device. -/
theorem add_of_filed {e : IndexEntry} (h : e.Filed) (fleets : Fleets) :
    fleets.add e =
      { rxMer := e.rxMer?.toList.foldl (fun fleet r => fleet.add r.mac r) fleets.rxMer
        fec := e.fec?.toList.foldl (fun fleet r => fleet.add r.mac r) fleets.fec } := by
  have hrxMer := fun r => h.rxMer (r := r)
  have hfec := fun r => h.fec (r := r)
  unfold add
  unfold IndexEntry.rxMer? IndexEntry.fec? at *
  split
  · rename_i r hdecode
    have hmac : r.mac = e.mac := congrArg Identity.mac (hrxMer r (by rw [hdecode]))
    simp [hdecode, hmac]
  · rename_i r hdecode
    have hmac : r.mac = e.mac := congrArg Identity.mac (hfec r (by rw [hdecode]))
    simp [hdecode, hmac]
  · rename_i hnotRxMer hnotFec
    split
    · rename_i r hdecode
      exact absurd hdecode (hnotRxMer r)
    · split
      · rename_i r hdecode
        exact absurd hdecode (hnotFec r)
      · rfl

theorem foldl_add_of_filed {entries : List IndexEntry} (h : ∀ e ∈ entries, e.Filed)
    (fleets : Fleets) :
    entries.foldl add fleets =
      { rxMer := (entries.filterMap IndexEntry.rxMer?).foldl
          (fun fleet r => fleet.add r.mac r) fleets.rxMer
        fec := (entries.filterMap IndexEntry.fec?).foldl
          (fun fleet r => fleet.add r.mac r) fleets.fec } := by
  induction entries generalizing fleets with
  | nil => rfl
  | cons e rest ih =>
    obtain ⟨he, hrest⟩ := List.forall_mem_cons.1 h
    rw [List.foldl_cons, ih hrest, add_of_filed he]
    cases hrxMer : e.rxMer? with
    | none => cases hfec : e.fec? <;> simp [hrxMer, hfec]
    | some r => cases hfec : e.fec? <;> simp [hrxMer, hfec]

/-- The fleets of an index hold the records of its entries, filed in the order of the index. -/
theorem ofIndex_of_filed {index : CaptureIndex} (h : ∀ e ∈ index.toList, e.Filed) :
    ofIndex index =
      { rxMer := Fleet.ofRecords (index.toList.filterMap IndexEntry.rxMer?)
        fec := Fleet.ofRecords (index.toList.filterMap IndexEntry.fec?) } :=
  foldl_add_of_filed h empty

/-- Entries of different identities never compete, so only the order among those of one identity
matters. -/
theorem ofIndex_eq_of_rivals {index other : CaptureIndex} (hindex : ∀ e ∈ index.toList, e.Filed)
    (hother : ∀ e ∈ other.toList, e.Filed)
    (hrivals : ∀ identity, index.rivals identity = other.rivals identity) :
    ofIndex index = ofIndex other := by
  have hrxMer : Fleet.ofRecords (index.toList.filterMap IndexEntry.rxMer?) =
      Fleet.ofRecords (other.toList.filterMap IndexEntry.rxMer?) := by
    apply Fleet.ofRecords_eq_of_slots
    intro mac key
    rw [Fleet.slot_filterMap fun e he r => (hindex e he).rxMer,
      Fleet.slot_filterMap fun e he r => (hother e he).rxMer]
    exact congrArg _ (hrivals _)
  have hfec : Fleet.ofRecords (index.toList.filterMap IndexEntry.fec?) =
      Fleet.ofRecords (other.toList.filterMap IndexEntry.fec?) := by
    apply Fleet.ofRecords_eq_of_slots
    intro mac key
    rw [Fleet.slot_filterMap fun e he r => (hindex e he).fec,
      Fleet.slot_filterMap fun e he r => (hother e he).fec]
    exact congrArg _ (hrivals _)
  rw [ofIndex_of_filed hindex, ofIndex_of_filed hother, hrxMer, hfec]

end Fleets

end CableCapture
