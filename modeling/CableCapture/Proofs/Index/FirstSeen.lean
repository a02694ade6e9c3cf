import CableCapture.Proofs.FirstOccurrences
import CableCapture.Proofs.Index.Channels

/-!
# Groups in first-seen order

A further entry goes behind the others of its channel, and a new channel or device behind the known
ones, whatever stages came before. So an index of files lists its devices and their channels in the
order of their first files, and the entries of a channel in the order of its files.
-/

namespace CableCapture

/-! ## One more entry -/

/-- Of the groups that queries look up, only that of the entry's channel changes. -/
theorem ChannelGroup.find?_insert (e : IndexEntry) (gs : List ChannelGroup) (channel : UInt8) :
    (((insert e gs).find? fun g => g.channel = channel).map entries).getD [] =
      ((gs.find? fun g => g.channel = channel).map entries).getD [] ++
        if e.channel = channel then [e] else [] := by
  induction gs with
  | nil => by_cases h : e.channel = channel <;> simp [insert, h]
  | cons g rest ih =>
    unfold insert
    by_cases hgroup : g.channel = e.channel
    · rw [if_pos hgroup, List.find?_cons, List.find?_cons]
      by_cases h : e.channel = channel <;> simp [hgroup, h]
    · rw [if_neg hgroup, List.find?_cons, List.find?_cons]
      by_cases h : g.channel = channel
      · simp [h, Ne.symm (h ▸ hgroup)]
      · simpa [h] using ih

namespace CaptureIndex

variable {index : CaptureIndex} {e : IndexEntry}

theorem groups_insert (index : CaptureIndex) (e : IndexEntry) (mac : MacAddress) :
    (index.insert e).groups mac =
      if e.mac = mac then ChannelGroup.insert e (index.groups mac) else index.groups mac := by
  unfold groups insert
  induction index.devices with
  | nil => by_cases h : e.mac = mac <;> simp [DeviceGroup.insert, h]
  | cons device rest ih =>
    unfold DeviceGroup.insert
    by_cases hdevice : device.mac = e.mac
    · rw [if_pos hdevice, List.find?_cons, List.find?_cons]
      by_cases h : e.mac = mac <;> simp [hdevice, h]
    · rw [if_neg hdevice, List.find?_cons, List.find?_cons]
      by_cases h : device.mac = mac
      · simp [h, Ne.symm (h ▸ hdevice)]
      · simpa [h] using ih

/-- The index has become the other one by an entry: everything that it lists stays where it is, and
what is new stands at the end. -/
structure GrowsBy (index : CaptureIndex) (e : IndexEntry) (grown : CaptureIndex) : Prop where
  macs : grown.macs = index.macs ++ if e.mac ∈ index.macs then [] else [e.mac]
  channels : ∀ mac, grown.channels mac = index.channels mac ++
    if e.mac = mac ∧ e.channel ∉ index.channels mac then [e.channel] else []
  entries : ∀ mac channel, grown.entries mac channel = index.entries mac channel ++
    if e.mac = mac ∧ e.channel = channel then [e] else []

theorem growsBy_insert (index : CaptureIndex) (e : IndexEntry) :
    index.GrowsBy e (index.insert e) where
  macs := by
    unfold macs insert
    rw [DeviceGroup.macs_insert]
    split
    · rw [List.append_nil]
    · rfl
  channels := by
    intro mac
    unfold channels
    rw [groups_insert]
    by_cases hmac : e.mac = mac
    · rw [if_pos hmac, ChannelGroup.channels_insert]
      by_cases hknown : e.channel ∈ (index.groups mac).map ChannelGroup.channel
      · rw [if_pos hknown, if_neg fun h => h.2 hknown, List.append_nil]
      · rw [if_neg hknown, if_pos ⟨hmac, hknown⟩]
    · rw [if_neg hmac, if_neg fun h => hmac h.1, List.append_nil]
  entries := by
    intro mac channel
    unfold entries
    rw [groups_insert]
    by_cases hmac : e.mac = mac
    · simp only [hmac, if_true, ChannelGroup.find?_insert, true_and]
    · simp [hmac]

/-! ## All entries -/

/-- Devices, channels and entries stand in the order in which these entries bring them up. -/
structure FirstSeen (index : CaptureIndex) (es : List IndexEntry) : Prop where
  macs : index.macs = (es.map IndexEntry.mac).eraseDups
  channels : ∀ mac, index.channels mac =
    ((es.filter fun e => e.mac = mac).map IndexEntry.channel).eraseDups
  entries : ∀ mac channel, index.entries mac channel =
    es.filter fun e => e.mac = mac ∧ e.channel = channel

theorem FirstSeen.empty : FirstSeen empty [] where
  macs := rfl
  channels _ := rfl
  entries _ _ := rfl

theorem FirstSeen.growsBy {es : List IndexEntry} {grown : CaptureIndex} (h : index.FirstSeen es)
    (hgrown : index.GrowsBy e grown) : grown.FirstSeen (es ++ [e]) where
  macs := by
    rw [hgrown.macs, h.macs, List.map_append, List.map_singleton, eraseDups_concat]
    simp only [List.mem_eraseDups]
  channels := by
    intro mac
    rw [hgrown.channels, h.channels, List.filter_append, List.map_append]
    by_cases hmac : e.mac = mac
    · simp only [List.filter_cons, List.filter_nil, hmac, decide_true, if_true, List.map_singleton,
        eraseDups_concat, List.mem_eraseDups, true_and, ite_not]
    · simp [hmac]
  entries := by
    intro mac channel
    rw [hgrown.entries, h.entries, List.filter_append, List.filter_cons, List.filter_nil]
    simp only [decide_eq_true_eq]

theorem firstSeen_ofEntries (es : List IndexEntry) : (ofEntries es).FirstSeen es := by
  induction es using List.reverseRecOn with
  | nil => exact .empty
  | append_singleton es e ih =>
    unfold ofEntries at ih ⊢
    rw [List.foldl_append]
    exact ih.growsBy (growsBy_insert _ e)

/-! ## Files -/

theorem firstSeen_ofFiles (files : List (String × List UInt8)) :
    (ofFiles files).FirstSeen (accepted files) :=
  firstSeen_ofEntries _

/-- The file has an entry. -/
def accepts (file : String × List UInt8) : Bool :=
  (IndexEntry.ofFile file.1 file.2).isOk

theorem accepts_eq_false_iff {name : String} {bytes : List UInt8} :
    accepts (name, bytes) = false ↔
      ∀ h identity, Header.parse bytes = .ok h → Identity.ofHeader h = .ok identity →
        identity.mac = .unset := by
  have hnone : accepts (name, bytes) = false ↔ ∀ e, IndexEntry.ofFile name bytes ≠ .ok e := by
    unfold accepts
    cases IndexEntry.ofFile name bytes <;> simp [Except.isOk, Except.toBool]
  rw [hnone]
  constructor
  · intro hrefused h identity hparse hidentity
    by_contra hset
    exact hrefused ⟨name, identity, bytes⟩
      (IndexEntry.ofFile_eq_ok.2 ⟨h, hparse, hidentity, hset, rfl, rfl⟩)
  · intro hunset e he
    obtain ⟨h, hparse, hidentity, hset, -, -⟩ := IndexEntry.ofFile_eq_ok.1 he
    exact hset (hunset h e.identity hparse hidentity)

theorem accepted_filter_accepts (files : List (String × List UInt8)) :
    accepted (files.filter accepts) = accepted files := by
  unfold accepted
  rw [List.filterMap_filter]
  congr 1
  funext ⟨name, bytes⟩
  cases hentry : IndexEntry.ofFile name bytes with
  | error fault => simp [hentry, Except.toOption]
  | ok e => simp [accepts, hentry, Except.isOk, Except.toBool]

/-- The index of a batch lists devices, channels and entries as its files bring them up. Files that
are not identified and files without an address may stand anywhere in the batch without a trace. And
any index, after any stages, takes a further entry at the end of its channel and leaves the rest as it
was. -/
theorem files_grouped_as_first_seen :
    (∀ files, (ofFiles files).FirstSeen (accepted files)) ∧
    (∀ files others, files.filter accepts = others.filter accepts →
      ofFiles files = ofFiles others) ∧
    (∀ name bytes, accepts (name, bytes) = false ↔
      ∀ h identity, Header.parse bytes = .ok h → Identity.ofHeader h = .ok identity →
        identity.mac = .unset) ∧
    ∀ index e, GrowsBy index e (index.insert e) := by
  refine ⟨firstSeen_ofFiles, ?_, fun _ _ => accepts_eq_false_iff, growsBy_insert⟩
  intro files others hsame
  calc ofFiles files
    _ = ofEntries (accepted (files.filter accepts)) := by rw [accepted_filter_accepts]; rfl
    _ = ofEntries (accepted (others.filter accepts)) := by rw [hsame]
    _ = ofFiles others := by rw [accepted_filter_accepts]; rfl

/-- The front of a file of levels, which is all that an index reads. -/
def frontFile (channel octet : UInt8) : List UInt8 :=
  [0x50, 0x4E, 0x4E, 4, 1, 0, 0, 0, 0, 0, channel, 0, 0, 0, 0, 0, octet]

/-- Two devices, the second one with a channel more. -/
def twoDeviceFiles : List (String × List UInt8) :=
  [("b.bin", frontFile 3 2), ("a.bin", frontFile 3 1), ("c.bin", frontFile 7 2)]

/-- The same files, a cut one before them and one without an address among them. -/
def filesAmongRefused : List (String × List UInt8) :=
  [("cut.bin", [0x50, 0x4E]), ("b.bin", frontFile 3 2), ("unset.bin", frontFile 3 0),
    ("a.bin", frontFile 3 1), ("c.bin", frontFile 7 2)]

theorem refused_files_leave_no_trace :
    twoDeviceFiles.filter accepts = filesAmongRefused.filter accepts ∧
      ofFiles twoDeviceFiles = ofFiles filesAmongRefused ∧
      (ofFiles twoDeviceFiles).FirstSeen (accepted twoDeviceFiles) ∧
      (accepted twoDeviceFiles).length = 3 := by
  obtain ⟨hseen, hsame, -, -⟩ := files_grouped_as_first_seen
  have hfilter : twoDeviceFiles.filter accepts = filesAmongRefused.filter accepts := by
    decide +kernel
  exact ⟨hfilter, hsame _ _ hfilter, hseen twoDeviceFiles, by decide +kernel⟩

end CaptureIndex

end CableCapture
