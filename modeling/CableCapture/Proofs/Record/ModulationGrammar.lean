import CableCapture.Proofs.Capture.Decoding
import CableCapture.Proofs.Capture.Header
import CableCapture.Proofs.Reader.Stops

/-!
# Nested payloads

The grammar of modulation profiles: a length says where the profiles end, and in each profile a
length says where its schemes end. A payload is accepted where the grammar spells it, so what stands
at the end of a profile or of all profiles is complete there, whatever bytes follow.
-/

namespace CableCapture

open Reader

/-! ## The grammar -/

/-- Schemes one after another: a type byte, one or two modulations and a number of subcarriers. -/
inductive ModulationScheme.Spelled : List ModulationScheme → List UInt8 → Prop where
  | nil : Spelled [] []
  | range (modulation : UInt8) (subcarriers : UInt16) {others : List ModulationScheme}
    {bytes : List UInt8} (next : Spelled others bytes) :
    Spelled (.range modulation subcarriers :: others)
      ([0, modulation] ++ BigEndian.ofUInt16 subcarriers ++ bytes)
  | skip (mainModulation skipModulation : UInt8) (subcarriers : UInt16)
    {others : List ModulationScheme} {bytes : List UInt8} (next : Spelled others bytes) :
    Spelled (.skip mainModulation skipModulation subcarriers :: others)
      ([1, mainModulation, skipModulation] ++ BigEndian.ofUInt16 subcarriers ++ bytes)

/-- Profiles one after another: a number, the size of a body, and schemes that fill the body. -/
inductive ModulationProfile.Spelled : List ModulationProfile → List UInt8 → Prop where
  | nil : Spelled [] []
  | profile (profile : UInt8) (size : UInt16) {schemes : List ModulationScheme}
    {body : List UInt8} (spelled : ModulationScheme.Spelled schemes body)
    (fills : body.length = size.toNat) {others : List ModulationProfile} {bytes : List UInt8}
    (next : Spelled others bytes) :
    Spelled ({ profile, schemes } :: others)
      ([profile] ++ BigEndian.ofUInt16 size ++ body ++ bytes)

/-- A payload: the fields in front, the size of the data, and profiles that fill the data. -/
inductive ModulationProfiles.Spelled (r : ModulationProfiles) : List UInt8 → Prop where
  | payload (size : UInt32) {data : List UInt8}
    (spelled : ModulationProfile.Spelled r.profiles data) (fills : data.length = size.toNat) :
    Spelled r
      ([r.channel] ++ r.mac.octets ++ BigEndian.ofUInt32 r.layout.zeroFrequencyHz ++
        BigEndian.ofUInt16 r.layout.firstActive ++ [r.layout.spacingKhz] ++
        BigEndian.ofUInt32 size ++ data)

/-! ## What is spelled is what is written -/

theorem ModulationScheme.spelled_iff {schemes : List ModulationScheme} {bytes : List UInt8} :
    Spelled schemes bytes ↔ bytes = schemes.flatMap toBytes := by
  constructor
  · intro h
    induction h with
    | nil => rfl
    | range modulation subcarriers next ih => rw [ih]; rfl
    | skip mainModulation skipModulation subcarriers next ih => rw [ih]; rfl
  · rintro rfl
    induction schemes with
    | nil => exact .nil
    | cons scheme others ih =>
      cases scheme with
      | range modulation subcarriers => exact .range modulation subcarriers ih
      | skip mainModulation skipModulation subcarriers =>
        exact .skip mainModulation skipModulation subcarriers ih

theorem ModulationProfile.spelled_iff {profiles : List ModulationProfile} {bytes : List UInt8} :
    Spelled profiles bytes ↔ (∀ p ∈ profiles, p.Fits) ∧ bytes = profiles.flatMap toBytes := by
  constructor
  · intro h
    induction h with
    | nil => simp
    | @profile profile size schemes body spelled fills others bytes next ih =>
      obtain rfl := ModulationScheme.spelled_iff.1 spelled
      obtain ⟨hothers, rfl⟩ := ih
      have hbody : Fits { profile, schemes } := fills.trans_lt size.toNat_lt
      refine ⟨List.forall_mem_cons.2 ⟨hbody, hothers⟩, ?_⟩
      rw [List.flatMap_cons, toBytes, fills, BigEndian.ofUInt16]
  · rintro ⟨hfits, rfl⟩
    induction profiles with
    | nil => exact .nil
    | cons p others ih =>
      rw [List.forall_mem_cons] at hfits
      rw [List.flatMap_cons, toBytes, ← BigEndian.ofUInt16_ofNat hfits.1]
      refine .profile p.profile _ (ModulationScheme.spelled_iff.2 rfl) ?_ (ih hfits.2)
      exact (UInt16.toNat_ofNat_of_lt' hfits.1).symm

namespace ModulationProfiles

/-- The lengths fit their fields. -/
structure Writable (r : ModulationProfiles) : Prop where
  bodies_fit : ∀ p ∈ r.profiles, p.Fits
  data_fits : (r.profiles.flatMap ModulationProfile.toBytes).length < 2 ^ 32

theorem spelled_iff {r : ModulationProfiles} {payload : List UInt8} :
    r.Spelled payload ↔ r.Writable ∧ payload = r.toPayload := by
  constructor
  · rintro ⟨size, hspelled, hfills⟩
    obtain ⟨hfits, rfl⟩ := ModulationProfile.spelled_iff.1 hspelled
    refine ⟨⟨hfits, hfills ▸ size.toNat_lt⟩, ?_⟩
    simp [toPayload, SubcarrierLayout.toBytes, declaredBytes, hfills, BigEndian.ofUInt32]
  · rintro ⟨⟨hfits, hlen⟩, rfl⟩
    have hdata := ModulationProfile.spelled_iff.2 ⟨hfits, rfl⟩
    have hspelled := Spelled.payload (r := r) (.ofNat _) hdata (UInt32.toNat_ofNat_of_lt' hlen).symm
    rw [BigEndian.ofUInt32_ofNat hlen] at hspelled
    simpa [toPayload, SubcarrierLayout.toBytes, declaredBytes] using hspelled

theorem decode_of_kind {h : Header} (hkind : h.kind? = some .modulationProfile) :
    decode h = (reader (h.preamble .modulationProfile)).decode h.payload :=
  Header.expect_bind (Header.kind_eq_ok.2 hkind) (by decide)

theorem decode_eq_ok_iff {h : Header} (hkind : h.kind? = some .modulationProfile)
    {r : ModulationProfiles} :
    decode h = .ok r ↔ r.preamble = h.preamble .modulationProfile ∧ r.Spelled h.payload := by
  rw [decode_of_kind hkind, decode_reader_eq_ok, spelled_iff]
  constructor
  · rintro ⟨hpreamble, hlen, hfits, hpayload⟩
    exact ⟨hpreamble, ⟨hfits, hlen⟩, hpayload⟩
  · rintro ⟨hpreamble, ⟨hfits, hlen⟩, hpayload⟩
    exact ⟨hpreamble, hlen, hfits, hpayload⟩

end ModulationProfiles

/-! ## Ends that nothing crosses -/

/-- The schemes of a profile are read from its body alone, and reading goes on behind the body. -/
theorem ModulationProfile.on_reader (profile : UInt8) {size : UInt16} {body : List UInt8}
    (hfills : body.length = size.toNat) (rest : List UInt8) :
    reader.on ([profile] ++ (BigEndian.ofUInt16 size ++ (body ++ rest))) =
      ((schemesOf body).map fun schemes => { profile, schemes }, rest) := by
  have hprofile : (uint8 "profile_id").Spells [profile] profile := spells_uint8.2 rfl
  have hsize : (uint16 "profile_len").Spells (BigEndian.ofUInt16 size) size := spells_uint16.2 rfl
  have hbody : (take "profile_len" size.toNat).Spells body body := spells_take.2 ⟨rfl, hfills⟩
  rw [reader, on_bind, hprofile]
  dsimp only
  rw [on_bind, hsize]
  dsimp only
  rw [on_bind, hbody]
  dsimp only
  rw [on_bind, on_check]
  cases schemesOf body <;> rfl

/-- A scheme that is cut by the end of its profile is too short, whatever follows the profile. -/
theorem ModulationProfile.on_reader_of_cut (profile : UInt8) {size : UInt16}
    (schemes : List ModulationScheme) {scheme : ModulationScheme} {front : List UInt8}
    (hcut : CutFrom scheme.toBytes front)
    (hfills : (schemes.flatMap ModulationScheme.toBytes ++ front).length = size.toNat)
    (rest : List UInt8) :
    ∃ field needed available,
      reader.on ([profile] ++ (BigEndian.ofUInt16 size ++
          ((schemes.flatMap ModulationScheme.toBytes ++ front) ++ rest))) =
        (.error (.truncatedPayload field needed available), rest) := by
  obtain ⟨field, needed, available, hbody⟩ :
      ∃ field needed available, schemesOf (schemes.flatMap ModulationScheme.toBytes ++ front) =
        .error (.truncatedPayload field needed available) :=
    ModulationScheme.framed_reader.untilEnd_of_cut ModulationScheme.writes_reader
      @ModulationScheme.consumes_reader (fun _ _ => trivial) trivial hcut
  refine ⟨field, needed, available, ?_⟩
  rw [on_reader profile hfills, hbody]
  rfl

namespace ModulationProfiles

/-- The fields in front of the data. -/
def front (r : ModulationProfiles) : List UInt8 :=
  [r.channel] ++ r.mac.octets ++ r.layout.toBytes

section Data

variable {h : Header} (hkind : h.kind? = some .modulationProfile) (r : ModulationProfiles)
  {data : List UInt8} (hlen : data.length < 2 ^ 32)
include hkind hlen

theorem decode_front_declared_append (behind : List UInt8) :
    decode { h with payload := r.front ++ declaredBytes data ++ behind } =
      (do
        finish "modulation profile data"
        let profiles ← check (profilesOf data)
        return { r with preamble := h.preamble .modulationProfile, profiles } :
          Reader ModulationProfiles).decode behind := by
  have hlayout : SubcarrierLayout.reader.Spells r.layout.toBytes r.layout :=
    SubcarrierLayout.writes_reader.2 ⟨trivial, rfl⟩
  have hdata : (declared "data_len").Spells (declaredBytes data) data :=
    spells_declared.2 ⟨hlen, rfl⟩
  refine (decode_of_kind (h := { h with payload := r.front ++ declaredBytes data ++ behind })
    hkind).trans ?_
  dsimp only
  rw [reader, front, List.append_assoc, List.append_assoc, List.append_assoc,
    (spells_uint8.2 rfl).decode_bind, (spells_mac.2 rfl).decode_bind, hlayout.decode_bind,
    hdata.decode_bind]
  rfl

/-- The profiles are read from the data alone. -/
theorem decode_front_declared :
    decode { h with payload := r.front ++ declaredBytes data } =
      (profilesOf data).map fun profiles =>
        { r with preamble := h.preamble .modulationProfile, profiles } := by
  have hend := decode_front_declared_append hkind r hlen []
  rw [List.append_nil] at hend
  rw [hend, decode_bind, on_finish, if_pos rfl]
  dsimp only
  rw [decode_bind, on_check]
  cases profilesOf data <;> rfl

theorem decode_of_behind {behind : List UInt8} (hbehind : behind ≠ []) :
    decode { h with payload := r.front ++ declaredBytes data ++ behind } =
      .error (.lengthMismatch (.trailing behind.length "modulation profile data")) := by
  rw [decode_front_declared_append hkind r hlen, decode_bind, on_finish, if_neg hbehind]

end Data

/-- The payloads that the grammar spells are decoded, to the record that is spelled, and nothing
else is. A profile that is cut by the end of the data is too short, bytes behind the data are a wrong
length even if they are the rest of it, and a scheme that is cut by the end of its profile is too
short, whatever follows the profile. Both repetitions are over after at most one step for each byte,
as each step takes one. -/
theorem decode_nested {h : Header} (hkind : h.kind? = some .modulationProfile) :
    (∀ r, decode h = .ok r ↔
      r.preamble = h.preamble .modulationProfile ∧ r.Spelled h.payload) ∧
    (∀ r, r.preamble = h.preamble .modulationProfile → r.Writable →
      decode { h with payload := r.toPayload } = .ok r) ∧
    (∀ (r : ModulationProfiles) (cut : ModulationProfile) (front data : List UInt8),
      (∀ p ∈ r.profiles, p.Fits) → cut.Fits → CutFrom cut.toBytes front →
      data = r.profiles.flatMap ModulationProfile.toBytes ++ front → data.length < 2 ^ 32 →
        (∃ field needed available, decode { h with payload := r.front ++ declaredBytes data } =
          .error (.truncatedPayload field needed available)) ∧
        ∀ behind, behind ≠ [] →
          decode { h with payload := r.front ++ declaredBytes data ++ behind } =
            .error (.lengthMismatch (.trailing behind.length "modulation profile data"))) ∧
    (∀ (r : ModulationProfiles) (profile : UInt8) (size : UInt16)
      (schemes : List ModulationScheme) (cut : ModulationScheme) (front behind data : List UInt8),
      (∀ p ∈ r.profiles, p.Fits) → CutFrom cut.toBytes front →
      (schemes.flatMap ModulationScheme.toBytes ++ front).length = size.toNat →
      data = r.profiles.flatMap ModulationProfile.toBytes ++ ([profile] ++
        (BigEndian.ofUInt16 size ++ ((schemes.flatMap ModulationScheme.toBytes ++ front) ++ behind))) →
      data.length < 2 ^ 32 →
        ∃ field needed available, decode { h with payload := r.front ++ declaredBytes data } =
          .error (.truncatedPayload field needed available)) ∧
    (ModulationScheme.reader.Consumes ∧ ∀ body,
      ModulationScheme.reader.Finishes body (ModulationProfile.schemesOf body)) ∧
    (ModulationProfile.reader.Consumes ∧ ∀ data,
      ModulationProfile.reader.Finishes data (profilesOf data)) := by
  refine ⟨fun r => decode_eq_ok_iff hkind, fun r hpreamble hwritable => ?_, ?_, ?_,
    ⟨ModulationScheme.consumes_reader, fun _ => finishes_untilEnd _ _⟩,
    ⟨ModulationProfile.consumes_reader, fun _ => finishes_untilEnd _ _⟩⟩
  · exact (decode_eq_ok_iff (h := { h with payload := r.toPayload }) hkind).2
      ⟨hpreamble, spelled_iff.2 ⟨hwritable, rfl⟩⟩
  · rintro r cut front _ hfits hcutFits hcut rfl hlen
    obtain ⟨field, needed, available, hfault⟩ :=
      ModulationProfile.framed_reader.untilEnd_of_cut ModulationProfile.writes_reader
        @ModulationProfile.consumes_reader hfits hcutFits hcut
    refine ⟨⟨field, needed, available, ?_⟩, fun _ => decode_of_behind hkind r hlen⟩
    rw [decode_front_declared hkind r hlen, profilesOf, hfault]
    rfl
  · rintro r profile size schemes cut front behind _ hfits hcut hfills rfl hlen
    obtain ⟨field, needed, available, hfault⟩ :=
      ModulationProfile.on_reader_of_cut profile schemes hcut hfills behind
    refine ⟨field, needed, available, ?_⟩
    rw [decode_front_declared hkind r hlen, profilesOf,
      untilEnd_append_of_error ModulationProfile.writes_reader @ModulationProfile.consumes_reader
        hfits (by simp) hfault]
    rfl

/-- Two profiles, one of them without schemes. Then one profile whose last byte is behind the data,
and one whose body ends a byte before its scheme does, with the byte behind it. -/
theorem decode_nested_two_profiles :
    let r : ModulationProfiles :=
      { preamble := ⟨.modulationProfile, 1, 0, 20⟩, channel := 33, mac := ⟨[2, 0, 0, 0, 0, 1], rfl⟩
        layout := ⟨0, 74, 50⟩, profiles := [⟨0, [.range 12 3000, .skip 10 8 800]⟩, ⟨1, []⟩] }
    let front := { r with profiles := [] }.front
    let h : Header :=
      { tag := "PNN", version := 10, major := 1, minor := 0, captureTime := 20, layout := .standard
        payload := r.toPayload }
    h.kind? = some .modulationProfile ∧ decode h = .ok r ∧
      decode { h with payload := front ++ declaredBytes [1, 0] ++ [0] } =
        .error (.lengthMismatch (.trailing 1 "modulation profile data")) ∧
      ∃ field needed available,
        decode { h with payload := front ++ declaredBytes [0, 0, 3, 0, 12, 0, 9] } =
          .error (.truncatedPayload field needed available) := by
  intro r front h
  have hkind : h.kind? = some .modulationProfile := by decide
  have hwritable : r.Writable :=
    ⟨by simp [r, ModulationProfile.Fits, ModulationScheme.toBytes], by decide⟩
  obtain ⟨haccepted, -, hprofiles, hschemes, -⟩ := decode_nested hkind
  have hprofile := hprofiles { r with profiles := [] } ⟨1, []⟩ [1, 0] [1, 0] (by simp)
    (by simp [ModulationProfile.Fits]) ⟨by simp, [0], by simp, rfl⟩ rfl (by decide)
  refine ⟨hkind, (haccepted r).2 ⟨rfl, spelled_iff.2 ⟨hwritable, rfl⟩⟩,
    hprofile.2 [0] (by simp), ?_⟩
  exact hschemes { r with profiles := [] } 0 3 [] (.range 12 9) [0, 12, 0] [9] _ (by simp)
    ⟨by simp, [9], by simp, rfl⟩ rfl rfl (by decide)

end ModulationProfiles

end CableCapture
