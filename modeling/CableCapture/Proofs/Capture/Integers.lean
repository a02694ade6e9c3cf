import CableCapture.Proofs.Numeric.Streams
import CableCapture.Proofs.Store.NewestSummary
import CableCapture.Proofs.Store.Totals
import Mathlib.Algebra.Group.Action.Defs

/-!
# Integers of decoded captures

The counts and lengths of a file have fields of their own widths, and so do the numbers that are added
up. Together they keep every sum over a decoded capture well inside its word, and the frequencies of
its subcarriers too. Summaries add up over one capture only, as those from files share their time.
-/

namespace CableCapture

/-! ## Sums of words -/

section Sums

variable {α : Type}

theorem toNat_foldl_add_uint32 (f : α → UInt32) (xs : List α) (start : UInt32) :
    (xs.foldl (fun total x => total + f x) start).toNat =
      (start.toNat + (xs.map fun x => (f x).toNat).sum) % 2 ^ 32 := by
  induction xs generalizing start with
  | nil => exact (Nat.mod_eq_of_lt start.toNat_lt).symm
  | cons x rest ih =>
    rw [List.foldl_cons, ih, UInt32.toNat_add, Nat.mod_add_mod, List.map_cons, List.sum_cons,
      Nat.add_assoc]

theorem toNat_foldl_add_uint64 (f : α → UInt64) (xs : List α) (start : UInt64) :
    (xs.foldl (fun total x => total + f x) start).toNat =
      (start.toNat + (xs.map fun x => (f x).toNat).sum) % 2 ^ 64 := by
  induction xs generalizing start with
  | nil => exact (Nat.mod_eq_of_lt start.toNat_lt).symm
  | cons x rest ih =>
    rw [List.foldl_cons, ih, UInt64.toNat_add, Nat.mod_add_mod, List.map_cons, List.sum_cons,
      Nat.add_assoc]

/-- The widths of the addends and of their number add up. -/
theorem sum_map_lt {f : α → ℕ} {xs : List α} {width count : ℕ} (hf : ∀ x ∈ xs, f x < 2 ^ width)
    (hlen : xs.length < 2 ^ count) : (xs.map f).sum < 2 ^ (width + count) := by
  have hle : ∀ y ∈ xs.map f, y ≤ 2 ^ width := by
    intro y hy
    obtain ⟨x, hx, rfl⟩ := List.mem_map.1 hy
    exact (hf x hx).le
  calc (xs.map f).sum ≤ (xs.map f).length • 2 ^ width := List.sum_le_card_nsmul _ _ hle
    _ = 2 ^ width * xs.length := by rw [List.length_map, smul_eq_mul, Nat.mul_comm]
    _ < 2 ^ width * 2 ^ count := Nat.mul_lt_mul_of_pos_left hlen (Nat.two_pow_pos width)
    _ = 2 ^ (width + count) := (Nat.pow_add 2 width count).symm

end Sums

/-! ## Hits -/

/-- The length of a block bounds the number of its counters. -/
theorem Histogram.toNat_totalHits {r : Histogram}
    (h : (r.hitCounts.flatMap BigEndian.ofUInt32).length < 2 ^ 32) :
    r.totalHits.toNat = (r.hitCounts.map UInt32.toNat).sum ∧ r.totalHits.toNat < 2 ^ 62 := by
  rw [length_flatMap_of_length BigEndian.length_ofUInt32] at h
  have hsum : (r.hitCounts.map UInt32.toNat).sum < 2 ^ (32 + 30) :=
    sum_map_lt (fun hits _ => hits.toNat_lt) (by omega)
  have hexact : r.totalHits.toNat = (r.hitCounts.map UInt32.toNat).sum := by
    rw [totalHits, toNat_foldl_add_uint64, UInt64.toNat_zero, Nat.zero_add]
    exact Nat.mod_eq_of_lt (hsum.trans (by norm_num))
  exact ⟨hexact, hexact ▸ hsum⟩

/-! ## Counters -/

namespace FecTotals

/-- Totals that miss no profile and count no set wrongly. -/
structure Exact (totals : FecTotals) (profiles : List FecProfile) : Prop where
  /-- There is a row for every profile that occurs, with or without sets, and for no other. -/
  listed : ∀ profile, profile ∈ totals.toList.map Prod.fst ↔ ∃ p ∈ profiles, p.profile = profile
  /-- Every counter is the sum over all sets of its profile, far below the end of its word. -/
  counted : ∀ profile counts, (profile, counts) ∈ totals.toList → ∀ counter : Counter,
    counter.ofCounts counts = counter.sum (setsOf profiles profile) ∧
      counter.ofCounts counts < 2 ^ 56

/-- A byte counts the profiles and two bytes count the sets of each. -/
theorem length_setsOf_lt {profiles : List FecProfile} (hlen : profiles.length < 2 ^ 8)
    (hfits : ∀ p ∈ profiles, p.Fits) (profile : UInt8) :
    (setsOf profiles profile).length < 2 ^ 24 := by
  have hsome : (profiles.filter fun p => p.profile = profile).length < 2 ^ 8 :=
    (List.length_filter_le _ _).trans_lt hlen
  have hsets : ∀ p ∈ profiles.filter fun p => p.profile = profile, p.sets.length < 2 ^ 16 :=
    fun p hp => hfits p (List.mem_filter.1 hp).1
  rw [setsOf, List.length_flatMap]
  exact sum_map_lt hsets hsome

theorem exact_ofProfiles {profiles : List FecProfile} (hlen : profiles.length < 2 ^ 8)
    (hfits : ∀ p ∈ profiles, p.Fits) : Exact (ofProfiles profiles) profiles where
  listed profile := by
    rw [Std.ExtTreeMap.map_fst_toList_eq_keys, Std.ExtTreeMap.mem_keys, mem_ofProfiles]
  counted profile counts hmem counter := by
    have hsum : counter.sum (setsOf profiles profile) < 2 ^ (32 + 24) :=
      sum_map_lt (fun s _ => counter.ofSet_lt s) (length_setsOf_lt hlen hfits profile)
    have hexact := ofCounts_of_mem hmem counter (hsum.trans (by norm_num))
    exact ⟨hexact, hexact ▸ hsum⟩

end FecTotals

theorem FecSummary.exact_of_ofBytes {bytes : List UInt8} {r : FecSummary}
    (h : Capture.ofBytes bytes = .ok (.fecSummary r)) : r.totals.Exact r.profiles := by
  obtain ⟨header, -, hdecode⟩ := bind_eq_ok.1 h
  obtain ⟨-, -, -, hreads⟩ := Capture.decode_eq_ok.1 hdecode
  obtain ⟨-, -, hlen, hfits, -⟩ := FecSummary.decode_reader_eq_ok.1 hreads
  exact FecTotals.exact_ofProfiles hlen hfits

/-- A channel adds up over its newest summary alone, so it has no more sets than a file holds. -/
theorem CaptureStore.exact_totals_of_files {offered : List FecSummary}
    (hfiles : ∀ r ∈ offered, ∃ bytes, Capture.ofBytes bytes = .ok (.fecSummary r))
    {channel : UInt8} {totals : FecTotals} (h : (run offered).totals channel = .ok totals) :
    totals.Exact ((run offered).profiles channel) := by
  have hchannel : channel ∈ (run offered).channels := exists_totals_eq_ok.1 ⟨totals, h⟩
  have htaken : ∀ r ∈ taken empty offered, r ∈ offered := by
    intro r hr
    rw [taken_run] at hr
    exact (List.mem_filter.1 hr).1
  have htime : ∀ r ∈ taken empty offered, CaptureRecord.time r = 0 := by
    intro r hr
    obtain ⟨bytes, hbytes⟩ := hfiles r (htaken r hr)
    exact (FecSummary.captureTime_of_ofBytes hbytes).2
  obtain ⟨r, hr, hsame⟩ := mem_channels_run.1 hchannel
  have hne : (taken empty offered).filter (fun s => CaptureRecord.channel s = channel) ≠ [] :=
    List.ne_nil_of_mem (List.mem_filter.2 ⟨hr, decide_eq_true hsame⟩)
  have hlast := List.getLast?_eq_some_getLast hne
  obtain ⟨bytes, hbytes⟩ := hfiles _ (htaken _ (List.mem_filter.1 (List.getLast_mem hne)).1)
  have hprofiles := congrArg (List.flatMap FecSummary.profiles)
    (ofChannel_of_untimed (captures_run offered) htime hlast)
  rw [List.flatMap_singleton] at hprofiles
  rw [totals_eq_ofProfiles hchannel] at h
  rw [← Except.ok.inj h, profiles, hprofiles]
  exact FecSummary.exact_of_ofBytes hbytes

/-! ## Subcarriers of a profile -/

theorem ModulationScheme.four_le_length (scheme : ModulationScheme) : 4 ≤ scheme.toBytes.length := by
  cases scheme <;> simp [toBytes]

/-- A scheme takes four bytes or more of a body whose length has two bytes. -/
theorem ModulationProfile.toNat_totalSubcarriers {p : ModulationProfile} (h : p.Fits) :
    p.totalSubcarriers.toNat = (p.schemes.map fun scheme => scheme.subcarriers.toNat).sum ∧
      p.totalSubcarriers.toNat < 2 ^ 30 := by
  have hlen : 4 * p.schemes.length ≤ (p.schemes.flatMap ModulationScheme.toBytes).length := by
    rw [List.length_flatMap, Nat.mul_comm, ← smul_eq_mul,
      ← List.length_map fun scheme : ModulationScheme => scheme.toBytes.length]
    refine List.card_nsmul_le_sum _ _ fun width hwidth => ?_
    obtain ⟨scheme, -, rfl⟩ := List.mem_map.1 hwidth
    exact scheme.four_le_length
  have hcount : p.schemes.length < 2 ^ 14 := by
    unfold Fits at h
    omega
  have hsum : (p.schemes.map fun scheme => scheme.subcarriers.toNat).sum < 2 ^ (16 + 14) :=
    sum_map_lt (fun scheme _ => scheme.subcarriers.toNat_lt) hcount
  have hexact : p.totalSubcarriers.toNat =
      (p.schemes.map fun scheme => scheme.subcarriers.toNat).sum := by
    rw [totalSubcarriers, toNat_foldl_add_uint32, UInt32.toNat_zero, Nat.zero_add]
    exact Nat.mod_eq_of_lt (hsum.trans (by norm_num))
  exact ⟨hexact, hexact ▸ hsum⟩

/-! ## Frequencies -/

namespace SubcarrierLayout

/-- The frequencies of so many subcarriers, in steps of the spacing. -/
structure Progression (layout : SubcarrierLayout) (count : ℕ) (frequencies : List UInt64) :
    Prop where
  length_eq : frequencies.length = count
  exact : ∀ i frequency, frequencies[i]? = some frequency →
    frequency.toNat = layout.zeroFrequencyHz.toNat +
      (layout.firstActive.toNat + i) * layout.spacingKhz.toNat * 1000
  bounded : ∀ frequency ∈ frequencies, frequency.toNat < 2 ^ 52
  /-- Subcarriers without a spacing are all in one place. -/
  increasing : 2 ≤ frequencies.length →
    (frequencies.Pairwise (· < ·) ↔ 0 < layout.spacingKhz)

variable (layout : SubcarrierLayout)

theorem toNat_frequency {index : ℕ} (h : index < 2 ^ 32) :
    (layout.frequency index).toNat = layout.zeroFrequencyHz.toNat +
        (layout.firstActive.toNat + index) * layout.spacingKhz.toNat * 1000 ∧
      (layout.frequency index).toNat < 2 ^ 52 := by
  have hzero := layout.zeroFrequencyHz.toNat_lt
  have hfirst := layout.firstActive.toNat_lt
  have hspacing := layout.spacingKhz.toNat_lt
  have hproduct : (layout.firstActive.toNat + index) * layout.spacingKhz.toNat ≤
      (2 ^ 16 + 2 ^ 32) * 2 ^ 8 := Nat.mul_le_mul (by omega) hspacing.le
  have hexact : (layout.frequency index).toNat = layout.zeroFrequencyHz.toNat +
      (layout.firstActive.toNat + index) * layout.spacingKhz.toNat * 1000 := by
    have hindex : (UInt64.ofNat index).toNat = index :=
      UInt64.toNat_ofNat_of_lt' (h.trans (by norm_num))
    unfold frequency
    simp only [UInt64.toNat_add, UInt64.toNat_mul, UInt16.toNat_toUInt64, UInt32.toNat_toUInt64,
      UInt8.toNat_toUInt64, hindex]
    have hthousand : (1000 : UInt64).toNat = 1000 := rfl
    rw [hthousand, Nat.mod_eq_of_lt (by omega : layout.firstActive.toNat + index < 2 ^ 64),
      Nat.mod_eq_of_lt (by omega :
        (layout.firstActive.toNat + index) * layout.spacingKhz.toNat < 2 ^ 64),
      Nat.mod_eq_of_lt (by omega :
        (layout.firstActive.toNat + index) * layout.spacingKhz.toNat * 1000 < 2 ^ 64),
      Nat.mod_eq_of_lt (by omega)]
  exact ⟨hexact, by omega⟩

theorem frequency_lt_iff {i j : ℕ} (hij : i < j) (hj : j < 2 ^ 32) :
    layout.frequency i < layout.frequency j ↔ 0 < layout.spacingKhz := by
  rw [UInt64.lt_iff_toNat_lt, (layout.toNat_frequency (hij.trans hj)).1,
    (layout.toNat_frequency hj).1, UInt8.lt_iff_toNat_lt, UInt8.toNat_zero, Nat.add_lt_add_iff_left,
    Nat.mul_lt_mul_right (by norm_num)]
  constructor
  · intro hlt
    exact Nat.pos_of_ne_zero fun hzero => by simp [hzero] at hlt
  · intro hpos
    exact Nat.mul_lt_mul_of_pos_right (Nat.add_lt_add_left hij _) hpos

theorem progression_frequencies {count : ℕ} (h : count < 2 ^ 32) :
    layout.Progression count (layout.frequencies count) where
  length_eq := by rw [frequencies, List.length_map, List.length_range]
  exact i frequency hi := by
    obtain ⟨hlt, rfl⟩ := List.getElem?_eq_some_iff.1 hi
    rw [frequencies, List.length_map, List.length_range] at hlt
    simp only [frequencies, List.getElem_map, List.getElem_range]
    exact (layout.toNat_frequency (hlt.trans h)).1
  bounded frequency hmem := by
    obtain ⟨index, hindex, rfl⟩ := List.mem_map.1 hmem
    exact (layout.toNat_frequency ((List.mem_range.1 hindex).trans h)).2
  increasing hlen := by
    rw [frequencies, List.length_map, List.length_range] at hlen
    rw [frequencies, List.pairwise_map]
    constructor
    · intro hpairwise
      have hfirst := List.pairwise_iff_getElem.1 hpairwise 0 1 (by simp; omega) (by simp; omega)
        (by norm_num)
      rw [List.getElem_range, List.getElem_range] at hfirst
      exact (layout.frequency_lt_iff Nat.zero_lt_one (by omega)).1 hfirst
    · intro hspacing
      refine List.pairwise_lt_range.imp_of_mem fun {i j} _ hj hij => ?_
      exact (layout.frequency_lt_iff hij ((List.mem_range.1 hj).trans h)).2 hspacing

end SubcarrierLayout

/-- Samples of four bytes are fewer than the bytes that they are decoded from. -/
theorem FixedPoint.length_lt_of_flatMap {f : FixedPoint} {samples : List Complex}
    {data : List UInt8} (h : samples.flatMap (f.encodeSample 2) = data)
    (hlen : data.length < 2 ^ 32) : samples.length < 2 ^ 32 := by
  have hbytes : data.length = 4 * samples.length :=
    h ▸ length_flatMap_of_length length_encodeSample samples
  omega

/-! ## Main result -/

/-- The integers that are derived from a capture are those of unbounded arithmetic. -/
def Capture.IntegersExact : Capture → Prop
  | histogram r =>
    r.totalHits.toNat = (r.hitCounts.map UInt32.toNat).sum ∧ r.totalHits.toNat < 2 ^ 62
  | fecSummary r => r.totals.Exact r.profiles
  | modulationProfile r => ∀ p ∈ r.profiles,
    p.totalSubcarriers.toNat = (p.schemes.map fun scheme => scheme.subcarriers.toNat).sum ∧
      p.totalSubcarriers.toNat < 2 ^ 30
  | channelEstimate r => r.layout.Progression r.coefficients.length r.frequencies
  | rxMer r => r.layout.Progression r.levels.length r.frequencies
  | preEqualization r => r.layout.Progression r.taps.length r.frequencies
  | symbolCapture _ | constellation _ | spectrum _ => True

/-- The integers that are derived from a decoded file do not wrap, and neither do the totals of a
store to which summaries from files were offered. -/
theorem integers_of_files_exact :
    (∀ bytes c, Capture.ofBytes bytes = .ok c → c.IntegersExact) ∧
    ∀ offered : List FecSummary,
      (∀ r ∈ offered, ∃ bytes, Capture.ofBytes bytes = .ok (.fecSummary r)) →
      ∀ channel totals, (CaptureStore.run offered).totals channel = .ok totals →
        totals.Exact ((CaptureStore.run offered).profiles channel) := by
  refine ⟨?_, fun offered hfiles channel totals => CaptureStore.exact_totals_of_files hfiles⟩
  intro bytes c hc
  obtain ⟨header, -, hdecode⟩ := bind_eq_ok.1 hc
  obtain ⟨-, -, -, hreads⟩ := Capture.decode_eq_ok.1 hdecode
  cases c with
  | histogram r =>
    obtain ⟨-, -, hlen, -⟩ := Histogram.decode_reader_eq_ok.1 hreads
    exact Histogram.toNat_totalHits hlen
  | fecSummary r => exact FecSummary.exact_of_ofBytes hc
  | modulationProfile r =>
    obtain ⟨-, -, hfits, -⟩ := ModulationProfiles.decode_reader_eq_ok.1 hreads
    exact fun p hp => ModulationProfile.toNat_totalSubcarriers (hfits p hp)
  | channelEstimate r =>
    obtain ⟨-, data, hlen, hread, -⟩ := ChannelEstimate.decode_reader_eq_ok.1 hreads
    exact r.layout.progression_frequencies
      (FixedPoint.length_lt_of_flatMap (FixedPoint.flatMap_encodeSample_two (by decide) hread) hlen)
  | rxMer r =>
    obtain ⟨-, data, hlen, hlevels, -⟩ := RxMer.decode_reader_eq_ok.1 hreads
    refine r.layout.progression_frequencies ?_
    rwa [← hlevels, List.length_map]
  | preEqualization r =>
    obtain ⟨-, data, hlen, hread, -⟩ := PreEqualization.decode_reader_eq_ok.1 hreads
    exact r.layout.progression_frequencies
      (FixedPoint.length_lt_of_flatMap (FixedPoint.flatMap_encodeSample_two (by decide) hread) hlen)
  | symbolCapture r => trivial
  | constellation r => trivial
  | spectrum r => trivial

/-- Two hit counters at their greatest value. -/
def fullHistogram : Histogram where
  preamble := { kind := .histogram, major := 1, minor := 0, captureTime := 20 }
  mac := ⟨[2, 0, 0, 0, 0, 1], rfl⟩
  symmetry := 0
  dwellCounts := []
  hitCounts := [0xFFFFFFFF, 0xFFFFFFFF]

/-- Two sets of one profile with their counters at the greatest value. -/
def fullSummary : FecSummary where
  preamble := { kind := .fecSummary, major := 1, minor := 0, captureTime := 0 }
  channel := 3
  mac := ⟨[2, 0, 0, 0, 0, 1], rfl⟩
  period := .tenMinutes
  profiles := [⟨4, [⟨0, 0xFFFFFFFF, 7, 0⟩, ⟨600, 0xFFFFFFFF, 5, 1⟩]⟩]

theorem integers_of_full_captures_exact :
    fullHistogram.totalHits.toNat = 8589934590 ∧
      ∃ totals, (CaptureStore.run [fullSummary, fullSummary]).totals 3 = .ok totals ∧
        ∀ counts, (4, counts) ∈ totals.toList → counts.total.toNat = 8589934590 := by
  have hhistogram : Capture.ofBytes (Capture.histogram fullHistogram).toBytes =
      .ok (.histogram fullHistogram) := by decide +kernel
  have hsummary : Capture.ofBytes (Capture.fecSummary fullSummary).toBytes =
      .ok (.fecSummary fullSummary) := by decide +kernel
  have hchannel : 3 ∈ (CaptureStore.run [fullSummary, fullSummary]).channels := by decide +kernel
  have hprofiles : (CaptureStore.run [fullSummary, fullSummary]).profiles 3 =
      fullSummary.profiles := by decide +kernel
  obtain ⟨totals, htotals⟩ := CaptureStore.exists_totals_eq_ok.2 hchannel
  have hexact := integers_of_files_exact.2 [fullSummary, fullSummary]
    (by simpa using ⟨_, hsummary⟩) 3 totals htotals
  rw [hprofiles] at hexact
  exact ⟨(integers_of_files_exact.1 _ _ hhistogram).1, totals, htotals,
    fun counts hcounts => (hexact.counted 4 counts hcounts .total).1⟩

end CableCapture
