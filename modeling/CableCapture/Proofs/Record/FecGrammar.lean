import CableCapture.Proofs.Capture.Decoding
import CableCapture.Proofs.Capture.Header
import CableCapture.Proofs.Reader.Stops

/-!
# Counted payloads

No length in a FEC summary says where it ends: a count of profiles and in each profile a count of
sets do. A payload is accepted where it is the serialisation of a summary whose counts fit their
fields. Any other one ends inside a field, the first that does not fit, or has bytes behind the last
profile.
-/

namespace CableCapture

open Reader

/-! ## The fields in their order -/

/-- What may be read next behind a part of a codeword set: a field and its size. -/
inductive CodewordSet.Awaits : List UInt8 → String → Nat → Prop where
  | timestamp : Awaits [] "codeword_set.timestamp" 4
  | total (timestamp : UInt32) :
    Awaits (BigEndian.ofUInt32 timestamp) "codeword_set.total_codewords" 4
  | corrected (timestamp total : UInt32) :
    Awaits (BigEndian.ofUInt32 timestamp ++ BigEndian.ofUInt32 total) "codeword_set.corrected" 4
  | uncorrectable (timestamp total corrected : UInt32) :
    Awaits (BigEndian.ofUInt32 timestamp ++ BigEndian.ofUInt32 total ++
      BigEndian.ofUInt32 corrected) "codeword_set.uncorrectable" 4

/-- What may be read next behind a part of a profile. Sets follow until there are as many as the
count says. -/
inductive FecProfile.Awaits : List UInt8 → String → Nat → Prop where
  | profile : Awaits [] "profile_id" 1
  | count (profile : UInt8) : Awaits [profile] "num_sets" 2
  | set (profile : UInt8) (count : UInt16) (sets : List CodewordSet) {front : List UInt8}
    {field : String} {needed : Nat} (missing : sets.length < count.toNat)
    (next : CodewordSet.Awaits front field needed) :
    Awaits ([profile] ++ BigEndian.ofUInt16 count ++ sets.flatMap CodewordSet.toBytes ++ front)
      field needed

/-- What may be read next behind a part of a summary. Profiles follow until there are as many as the
count says. -/
inductive FecSummary.Awaits : List UInt8 → String → Nat → Prop where
  | channel : Awaits [] "channel_id" 1
  | mac (channel : UInt8) : Awaits [channel] "mac_address" 6
  | period (channel : UInt8) (mac : MacAddress) :
    Awaits ([channel] ++ mac.octets) "summary_type" 1
  | count (channel : UInt8) (mac : MacAddress) (period : UInt8) :
    Awaits ([channel] ++ mac.octets ++ [period]) "num_profiles" 1
  | profile (channel : UInt8) (mac : MacAddress) (period count : UInt8)
    (profiles : List FecProfile) {front : List UInt8} {field : String} {needed : Nat}
    (missing : profiles.length < count.toNat) (fits : ∀ p ∈ profiles, p.Fits)
    (next : FecProfile.Awaits front field needed) :
    Awaits ([channel] ++ mac.octets ++ [period, count] ++ profiles.flatMap FecProfile.toBytes ++
      front) field needed

/-! ## Where items stop -/

theorem CodewordSet.decode_reader_eq_error {bytes : List UInt8} {fault : Fault} :
    reader.decode bytes = .error fault ↔ Stops Awaits bytes fault := by
  simp only [reader, decode_uint32_bind_eq_error, decode_pure, reduceCtorEq, and_false,
    exists_false, or_false]
  constructor
  · rintro (h | ⟨timestamp, _, rfl, h | ⟨total, _, rfl, h | ⟨corrected, _, rfl, h⟩⟩⟩)
    · exact ⟨_, _, _, _, .timestamp, rfl, h⟩
    · exact ⟨_, _, _, _, .total timestamp, rfl, h⟩
    · exact ⟨_, _, _, _, .corrected timestamp total, by simp, h⟩
    · exact ⟨_, _, _, _, .uncorrectable timestamp total corrected, by simp, h⟩
  · rintro ⟨_, _, _, tail, hnext, rfl, h⟩
    cases hnext with
    | timestamp => exact .inl h
    | total timestamp => exact .inr ⟨timestamp, _, rfl, .inl h⟩
    | corrected timestamp total =>
      exact .inr ⟨timestamp, _, by simp, .inr ⟨total, _, rfl, .inl h⟩⟩
    | uncorrectable timestamp total corrected =>
      exact .inr ⟨timestamp, _, by simp, .inr ⟨total, _, rfl, .inr ⟨corrected, _, rfl, h⟩⟩⟩

theorem FecProfile.decode_reader_eq_error {bytes : List UInt8} {fault : Fault} :
    reader.decode bytes = .error fault ↔ Stops Awaits bytes fault := by
  simp only [reader, decode_uint8_bind_eq_error, decode_uint16_bind_eq_error,
    decode_bind_pure_eq_error,
    CodewordSet.framed_reader.decode_times_eq_error CodewordSet.writes_reader,
    CodewordSet.decode_reader_eq_error]
  constructor
  · rintro (h | ⟨profile, _, rfl, h | ⟨count, _, rfl, sets, hmissing, -, _, rfl, h⟩⟩)
    · exact ⟨_, _, _, _, .profile, rfl, h⟩
    · exact ⟨_, _, _, _, .count profile, rfl, h⟩
    · obtain ⟨front, field, needed, tail, hnext, rfl, h⟩ := h
      exact ⟨_, _, _, tail, .set profile count sets hmissing hnext, by simp, h⟩
  · rintro ⟨_, _, _, tail, hnext, rfl, h⟩
    cases hnext with
    | profile => exact .inl h
    | count profile => exact .inr ⟨profile, _, rfl, .inl h⟩
    | @set profile count sets front field needed hmissing hset =>
      refine .inr ⟨profile, _, ?_,
        .inr ⟨count, _, rfl, sets, hmissing, by simp, front ++ tail, rfl, ?_⟩⟩
      · simp
      · exact ⟨front, _, _, tail, hset, rfl, h⟩

/-! ## Summaries -/

theorem FecPeriod.ofCode_code_iff {p : FecPeriod} :
    ofCode p.code = p ↔ p ≠ .other 2 ∧ p ≠ .other 3 := by
  cases p with
  | tenMinutes => simp [code, ofCode]
  | twentyFourHours => simp [code, ofCode]
  | other code =>
    unfold ofCode
    split
    · simp_all [FecPeriod.code]
    · split <;> simp_all [FecPeriod.code]

namespace FecSummary

/-- The counts fit their fields, and the period is the one of its code. -/
structure Writable (r : FecSummary) : Prop where
  period_ne_two : r.period ≠ .other 2
  period_ne_three : r.period ≠ .other 3
  profiles_le : r.profiles.length ≤ 255
  sets_le : ∀ p ∈ r.profiles, p.sets.length ≤ 65535

theorem writable_iff {r : FecSummary} :
    r.Writable ↔ FecPeriod.ofCode r.period.code = r.period ∧ r.profiles.length < 2 ^ 8 ∧
      ∀ p ∈ r.profiles, p.Fits := by
  rw [FecPeriod.ofCode_code_iff]
  constructor
  · rintro ⟨htwo, hthree, hprofiles, hsets⟩
    exact ⟨⟨htwo, hthree⟩, Nat.lt_succ_of_le hprofiles, fun p hp => Nat.lt_succ_of_le (hsets p hp)⟩
  · rintro ⟨⟨htwo, hthree⟩, hprofiles, hsets⟩
    exact ⟨htwo, hthree, Nat.le_of_lt_succ hprofiles, fun p hp => Nat.le_of_lt_succ (hsets p hp)⟩

theorem decode_reader_eq_error {preamble : Preamble} {payload : List UInt8} {fault : Fault} :
    (reader preamble).decode payload = .error fault ↔
      Stops Awaits payload fault ∨
        ∃ r more, Writable r ∧ more ≠ [] ∧ payload = r.toPayload ++ more ∧
          fault = .lengthMismatch (.trailing more.length "FEC summary profiles") := by
  simp only [reader, decode_uint8_bind_eq_error, decode_mac_bind_eq_error,
    (FecProfile.framed_reader.times _).decode_bind_eq_error,
    FecProfile.framed_reader.spells_times FecProfile.writes_reader,
    FecProfile.framed_reader.decode_times_eq_error FecProfile.writes_reader,
    FecProfile.decode_reader_eq_error, decode_finish_bind_pure_eq_error]
  constructor
  · rintro (h | ⟨channel, _, rfl, h | ⟨mac, _, rfl, h | ⟨period, _, rfl, h | ⟨count, _, rfl, h⟩⟩⟩⟩)
    · exact .inl ⟨_, _, _, _, .channel, rfl, h⟩
    · exact .inl ⟨_, _, _, _, .mac channel, rfl, h⟩
    · exact .inl ⟨_, _, _, _, .period channel mac, by simp, h⟩
    · exact .inl ⟨_, _, _, _, .count channel mac period, by simp, h⟩
    · rcases h with ⟨profiles, hmissing, hfits, _, rfl, front, field, needed, tail, hnext, rfl, h⟩ |
        ⟨profiles, _, ⟨hlen, hfits, rfl⟩, more, rfl, hmore, rfl⟩
      · exact .inl ⟨_, _, _, tail, .profile channel mac period count profiles hmissing hfits hnext,
          by simp, h⟩
      · refine .inr ⟨⟨preamble, channel, mac, .ofCode period, profiles⟩, more, ?_, hmore, ?_, rfl⟩
        · exact writable_iff.2 ⟨by simp, hlen ▸ count.toNat_lt, hfits⟩
        · simp [toPayload, hlen, BigEndian.ofNat_one]
  · rintro (⟨_, _, _, tail, hnext, rfl, h⟩ | ⟨r, more, hwritable, hmore, rfl, rfl⟩)
    · cases hnext with
      | channel => exact .inl h
      | mac channel => exact .inr ⟨channel, _, rfl, .inl h⟩
      | period channel mac => exact .inr ⟨channel, _, by simp, .inr ⟨mac, _, rfl, .inl h⟩⟩
      | count channel mac period =>
        exact .inr ⟨channel, _, by simp, .inr ⟨mac, _, rfl, .inr ⟨period, _, rfl, .inl h⟩⟩⟩
      | @profile channel mac period count profiles front field needed hmissing hfits hprofile =>
        refine .inr ⟨channel, _, ?_, .inr ⟨mac, _, rfl, .inr ⟨period, _, rfl,
          .inr ⟨count, _, rfl, .inl ⟨profiles, hmissing, hfits, front ++ tail, rfl, ?_⟩⟩⟩⟩⟩
        · simp
        · exact ⟨front, _, _, tail, hprofile, rfl, h⟩
    · obtain ⟨-, hlen, hfits⟩ := writable_iff.1 hwritable
      refine .inr ⟨r.channel, _, ?_, .inr ⟨r.mac, _, rfl, .inr ⟨r.period.code, _, rfl,
        .inr ⟨.ofNat r.profiles.length, _, rfl,
          .inr ⟨r.profiles, _, ⟨?_, hfits, rfl⟩, more, rfl, hmore, rfl⟩⟩⟩⟩⟩
      · simp [toPayload, BigEndian.ofNat_one]
      · exact (UInt8.toNat_ofNat_of_lt' hlen).symm

theorem decode_of_kind {h : Header} (hkind : h.kind? = some .fecSummary) :
    decode h = (reader (h.preamble .fecSummary)).decode h.payload :=
  Header.expect_bind (Header.kind_eq_ok.2 hkind) (by decide)

/-- The serialisations of summaries are decoded, to the summary that they are of, and nothing else
is. What is not decoded ends inside a field, with complete fields in front of it, or is a
serialisation with bytes behind it. -/
theorem decode_counted {h : Header} (hkind : h.kind? = some .fecSummary) :
    (∀ r, decode h = .ok r ↔
      r.preamble = h.preamble .fecSummary ∧ r.Writable ∧ h.payload = r.toPayload) ∧
    (∀ r, r.preamble = h.preamble .fecSummary → r.Writable →
      decode { h with payload := r.toPayload } = .ok r) ∧
    ∀ fault, decode h = .error fault ↔
      Stops Awaits h.payload fault ∨
        ∃ r more, Writable r ∧ more ≠ [] ∧ h.payload = r.toPayload ++ more ∧
          fault = .lengthMismatch (.trailing more.length "FEC summary profiles") := by
  have haccepted (h : Header) (hkind : h.kind? = some .fecSummary) (r : FecSummary) :
      decode h = .ok r ↔
        r.preamble = h.preamble .fecSummary ∧ r.Writable ∧ h.payload = r.toPayload := by
    rw [decode_of_kind hkind, decode_reader_eq_ok, writable_iff]
    simp only [and_assoc]
  refine ⟨haccepted h hkind, fun r hpreamble hwritable => ?_, fun fault => ?_⟩
  · exact (haccepted { h with payload := r.toPayload } hkind r).2 ⟨hpreamble, hwritable, rfl⟩
  · rw [decode_of_kind hkind, decode_reader_eq_error]

/-- Two profiles, one of them without sets, under a period that is not listed: as they are, with a
byte behind them, and with the last fourteen bytes missing. -/
theorem decode_counted_two_profiles :
    let r : FecSummary :=
      { preamble := ⟨.fecSummary, 1, 0, 0⟩, channel := 160, mac := ⟨[2, 0, 0, 0, 0, 1], rfl⟩
        period := .other 7, profiles := [⟨0, [⟨1, 1000, 10, 2⟩]⟩, ⟨255, []⟩] }
    let h : Header :=
      { tag := "PNN", version := 8, major := 1, minor := 0, captureTime := 0, layout := .compact
        payload := r.toPayload }
    h.kind? = some .fecSummary ∧ r.Writable ∧ decode h = .ok r ∧
      decode { h with payload := r.toPayload ++ [9] } =
        .error (.lengthMismatch (.trailing 1 "FEC summary profiles")) ∧
      decode { h with payload := r.toPayload.take 17 } =
        .error (.truncatedPayload "codeword_set.total_codewords" 4 1) := by
  intro r h
  have hkind : h.kind? = some .fecSummary := by decide
  have hwritable : r.Writable := ⟨by decide, by decide, by decide, by decide⟩
  have hcut : Stops Awaits (r.toPayload.take 17)
      (.truncatedPayload "codeword_set.total_codewords" 4 1) :=
    ⟨_, _, _, [0], .profile 160 r.mac 7 2 [] (by decide) (by simp)
      (.set 0 1 [] (by decide) (.total 1)), by decide, by decide, rfl⟩
  refine ⟨hkind, hwritable, ((decode_counted hkind).1 r).2 ⟨rfl, hwritable, rfl⟩, ?_, ?_⟩
  · exact ((decode_counted (h := { h with payload := r.toPayload ++ [9] }) hkind).2.2 _).2
      (.inr ⟨r, [9], hwritable, by decide, rfl, rfl⟩)
  · exact ((decode_counted (h := { h with payload := r.toPayload.take 17 }) hkind).2.2 _).2
      (.inl hcut)

end FecSummary

end CableCapture
