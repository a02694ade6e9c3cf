import CableCapture.Proofs.Reader.Fields
import CableCapture.Record.FecSummary
import CableCapture.Record.ModulationProfile

/-!
# Items inside payloads

The parts that payloads repeat are spelled in one way each: subcarrier layouts, codeword sets and FEC
profiles, modulation schemes and modulation profiles. A count or a length has to fit its field.
-/

namespace CableCapture

open Reader

theorem SubcarrierLayout.framed_reader : SubcarrierLayout.reader.Framed :=
  .bind (.uint32 _) fun _ => .bind (.uint16 _) fun _ => .bind (.uint8 _) fun _ => .pure _

theorem SubcarrierLayout.writes_reader :
    SubcarrierLayout.reader.Writes (fun _ => True) SubcarrierLayout.toBytes := by
  intro bytes layout
  simp only [SubcarrierLayout.reader, (Framed.uint32 _).spells_bind,
    (Framed.uint16 _).spells_bind, (Framed.uint8 _).spells_bind, spells_uint32, spells_uint16,
    spells_uint8, spells_pure, exists_eq_left, true_and]
  constructor
  · intro h
    obtain ⟨zero, _, rfl, first, _, rfl, spacing, _, rfl, rfl, rfl⟩ := h
    simp [SubcarrierLayout.toBytes]
  · intro h
    subst h
    refine ⟨layout.zeroFrequencyHz, _, ?_, layout.firstActive, _, rfl, layout.spacingKhz, [], rfl,
      rfl, rfl⟩
    simp [SubcarrierLayout.toBytes]

theorem SubcarrierLayout.decode_reader_bind {β : Type} {next : SubcarrierLayout → Reader β}
    {bytes : List UInt8} {b : β} :
    (SubcarrierLayout.reader >>= next).decode bytes = .ok b ↔
      ∃ layout rest, bytes = SubcarrierLayout.toBytes layout ++ rest ∧
        (next layout).decode rest = .ok b := by
  have hspells : ∀ {used layout}, SubcarrierLayout.reader.Spells used layout ↔
      used = SubcarrierLayout.toBytes layout := 
      writes_reader.trans (iff_of_eq (true_and _))
  simp only [framed_reader.decode_bind_eq_ok, hspells, exists_eq_left]

/-! ## FEC profiles -/

theorem CodewordSet.framed_reader : CodewordSet.reader.Framed :=
  .bind (.uint32 _) fun _ => .bind (.uint32 _) fun _ => .bind (.uint32 _) fun _ =>
    .bind (.uint32 _) fun _ => .pure _

theorem CodewordSet.writes_reader :
    CodewordSet.reader.Writes (fun _ => True) CodewordSet.toBytes := by
  intro bytes s
  simp only [CodewordSet.reader, (Framed.uint32 _).spells_bind, spells_uint32, spells_pure,
    exists_eq_left, true_and]
  constructor
  · intro h
    obtain ⟨timestamp, _, rfl, total, _, rfl, corrected, _, rfl, uncorrectable, _, rfl, rfl, rfl⟩ :=
      h
    simp [CodewordSet.toBytes]
  · intro h
    subst h
    refine ⟨s.timestamp, _, ?_, s.total, _, rfl, s.corrected, _, rfl, s.uncorrectable, [], rfl, rfl,
      rfl⟩
    simp [CodewordSet.toBytes]

/-- The number of sets fits its two bytes. -/
def FecProfile.Fits (p : FecProfile) : Prop := p.sets.length < 2 ^ 16

theorem FecProfile.framed_reader : FecProfile.reader.Framed :=
  .bind (.uint8 _) fun _ => .bind (.uint16 _) fun _ =>
    .bind (CodewordSet.framed_reader.times _) fun _ => .pure _

theorem FecProfile.writes_reader : FecProfile.reader.Writes FecProfile.Fits FecProfile.toBytes := by
  intro bytes p
  simp only [FecProfile.reader, (Framed.uint8 _).spells_bind, (Framed.uint16 _).spells_bind,
    (CodewordSet.framed_reader.times _).spells_bind,
    CodewordSet.framed_reader.spells_times CodewordSet.writes_reader, spells_uint8, spells_uint16,
    spells_pure, exists_eq_left, FecProfile.Fits, FecProfile.toBytes]
  constructor
  · intro h
    obtain ⟨profile, _, rfl, count, _, rfl, sets, _, ⟨hlen, -, rfl⟩, _, rfl, rfl, rfl⟩ := h
    have hcount := count.toNat_lt
    simp only [hlen]
    exact ⟨hcount, by simp [BigEndian.ofUInt16]⟩
  · intro h
    obtain ⟨hfits, rfl⟩ := h
    refine ⟨p.profile, _, by rw [List.append_assoc], .ofNat p.sets.length, _, ?_, p.sets, _,
      ⟨?_, fun _ _ => trivial, rfl⟩, [], by rw [List.append_nil], rfl, rfl⟩
    · rw [BigEndian.ofUInt16_ofNat hfits]
    · rw [UInt16.toNat_ofNat_of_lt' hfits]

/-! ## Modulation profiles -/

theorem ModulationScheme.framed_bodyReader (type : UInt8) :
    (ModulationScheme.bodyReader type).Framed := by
  unfold ModulationScheme.bodyReader
  split
  · exact .bind (.uint8 _) fun _ => .bind (.uint16 _) fun _ => .pure _
  · split
    · exact .bind (.uint8 _) fun _ => .bind (.uint8 _) fun _ => .bind (.uint16 _) fun _ => .pure _
    · exact .throw _

theorem ModulationScheme.framed_reader : ModulationScheme.reader.Framed :=
  .bind (.uint8 _) framed_bodyReader

theorem ModulationScheme.spells_rangeReader {bytes : List UInt8} {scheme : ModulationScheme} :
    rangeReader.Spells bytes scheme ↔
      ∃ modulation subcarriers, scheme = range modulation subcarriers ∧
        bytes = [modulation] ++ BigEndian.ofUInt16 subcarriers := by
  simp only [rangeReader, (Framed.uint8 _).spells_bind, (Framed.uint16 _).spells_bind,
    spells_uint8, spells_uint16, spells_pure, exists_eq_left]
  constructor
  · intro h
    obtain ⟨modulation, _, rfl, subcarriers, _, rfl, rfl, rfl⟩ := h
    exact ⟨modulation, subcarriers, rfl, by rw [List.append_nil]⟩
  · intro h
    obtain ⟨modulation, subcarriers, rfl, rfl⟩ := h
    exact ⟨modulation, _, rfl, subcarriers, [], by rw [List.append_nil], rfl, rfl⟩

theorem ModulationScheme.spells_skipReader {bytes : List UInt8} {scheme : ModulationScheme} :
    skipReader.Spells bytes scheme ↔
      ∃ mainModulation skipModulation subcarriers,
        scheme = skip mainModulation skipModulation subcarriers ∧
        bytes = [mainModulation, skipModulation] ++ BigEndian.ofUInt16 subcarriers := by
  simp only [skipReader, (Framed.uint8 _).spells_bind, (Framed.uint16 _).spells_bind,
    spells_uint8, spells_uint16, spells_pure, exists_eq_left]
  constructor
  · intro h
    obtain ⟨main, _, rfl, skipped, _, rfl, subcarriers, _, rfl, rfl, rfl⟩ := h
    exact ⟨main, skipped, subcarriers, rfl, by simp⟩
  · intro h
    obtain ⟨main, skipped, subcarriers, rfl, rfl⟩ := h
    exact ⟨main, _, rfl, skipped, _, rfl, subcarriers, [], by simp, rfl, rfl⟩

theorem ModulationScheme.writes_reader :
    ModulationScheme.reader.Writes (fun _ => True) ModulationScheme.toBytes := by
  intro bytes scheme
  simp only [ModulationScheme.reader, (Framed.uint8 _).spells_bind, spells_uint8, exists_eq_left,
    true_and]
  constructor
  · intro h
    obtain ⟨type, body, rfl, hbody⟩ := h
    unfold bodyReader at hbody
    split at hbody
    · obtain ⟨modulation, subcarriers, rfl, rfl⟩ := spells_rangeReader.1 hbody
      simp_all [ModulationScheme.toBytes]
    · split at hbody
      · obtain ⟨main, skipped, subcarriers, rfl, rfl⟩ := spells_skipReader.1 hbody
        simp_all [ModulationScheme.toBytes]
      · exact absurd hbody not_spells_throw
  · intro h
    subst h
    cases scheme with
    | range modulation subcarriers =>
      exact ⟨0, _, rfl, spells_rangeReader.2 ⟨modulation, subcarriers, rfl, rfl⟩⟩
    | skip main skipped subcarriers =>
      exact ⟨1, _, rfl, spells_skipReader.2 ⟨main, skipped, subcarriers, rfl, rfl⟩⟩

theorem ModulationProfile.schemesOf_eq_ok {bytes : List UInt8} {schemes : List ModulationScheme} :
    ModulationProfile.schemesOf bytes = .ok schemes ↔
      bytes = schemes.flatMap ModulationScheme.toBytes :=
  (ModulationScheme.framed_reader.untilEnd_eq_ok ModulationScheme.writes_reader
    @ModulationScheme.consumes_reader).trans (by simp)

/-- The length of the schemes fits its two bytes. -/
def ModulationProfile.Fits (p : ModulationProfile) : Prop :=
  (p.schemes.flatMap ModulationScheme.toBytes).length < 2 ^ 16

theorem ModulationProfile.framed_reader : ModulationProfile.reader.Framed :=
  .bind (.uint8 _) fun _ => .bind (.uint16 _) fun _ => .bind (.take _ _) fun _ =>
    .bind (.check _) fun _ => .pure _

theorem ModulationProfile.writes_reader :
    ModulationProfile.reader.Writes ModulationProfile.Fits ModulationProfile.toBytes := by
  intro bytes p
  simp only [ModulationProfile.reader, (Framed.uint8 _).spells_bind, (Framed.uint16 _).spells_bind,
    (Framed.take _ _).spells_bind, (Framed.check _).spells_bind, spells_uint8, spells_uint16,
    spells_take, spells_check, spells_pure, schemesOf_eq_ok, exists_eq_left, and_assoc,
    ModulationProfile.Fits, ModulationProfile.toBytes]
  constructor
  · intro h
    obtain ⟨profile, _, rfl, size, _, rfl, body, hlen, rest, rfl, schemes, rfl, _, rfl, rfl, rfl⟩ := h
    have hsize := size.toNat_lt
    simp only [hlen]
    exact ⟨hsize, by simp [BigEndian.ofUInt16]⟩
  · intro h
    obtain ⟨hfits, rfl⟩ := h
    refine ⟨p.profile, _, by rw [List.append_assoc], .ofNat _, _, by rw [BigEndian.ofUInt16_ofNat hfits],
      p.schemes.flatMap ModulationScheme.toBytes, ?_, [], by rw [List.append_nil], p.schemes, rfl, [],
      rfl, rfl, rfl⟩
    rw [UInt16.toNat_ofNat_of_lt' hfits]

theorem ModulationProfiles.profilesOf_eq_ok {bytes : List UInt8}
    {profiles : List ModulationProfile} :
    ModulationProfiles.profilesOf bytes = .ok profiles ↔
      (∀ p ∈ profiles, p.Fits) ∧ bytes = profiles.flatMap ModulationProfile.toBytes :=
  ModulationProfile.framed_reader.untilEnd_eq_ok ModulationProfile.writes_reader
    @ModulationProfile.consumes_reader

end CableCapture
