import CableCapture.Proofs.Numeric.Order
import CableCapture.Proofs.Record.ArrayLengths

/-!
# Segments and bins

The amplitudes of a spectrum are the bins of its segments one after another, and so are its
frequencies, which are generated from the centres of the segments. Both views list a bin at the same
index, however many bins the last segment lacks.
-/

namespace CableCapture

open Binary64

/-! ## Numbers -/

/-- Either zero can be added to a number without a change. -/
theorem Binary64.ofNat_add_of_denotes_zero {n : ℕ} {y : Float} (hn : n < 2 ^ 53)
    (hy : Denotes y 0) : Float.ofNat n + y = Float.ofNat n := by
  have hsum : Float.ofNat n + y = .ofModel (.pack (.add .binary64
    (Float.ofNat n).toModel.unpack y.toModel.unpack)) := rfl
  by_cases hzero : n = 0
  · subst hzero
    obtain ⟨s, hs⟩ := Stands.eq_zero hy rfl
    have hfirst : (Float.ofNat 0).toModel.unpack = .zero .positive := rfl
    rw [hsum, hs, hfirst]
    cases s <;> rfl
  · have hproduct : Float.ofNat n = .ofModel (.pack (.mul .binary64
        n.toUInt64.toFloat.toModel.unpack (Float.ofBits 0x3FF0000000000000).toModel.unpack)) :=
      ofNat_of_small hn
    have hmul := Stands.mul (denotes_toFloat n.toUInt64) denotes_one
    have hadd := Stands.add (denotes_ofNat_small hn) hy
    rw [mul_one, UInt64.toNat_ofNat_of_lt' (hn.trans (by norm_num)), rounded_natCast hn,
      rounded_natCast hn] at hmul
    rw [add_zero, rounded_natCast hn] at hadd
    rw [hsum, hadd.eq_of_ne_zero hmul (by exact_mod_cast hzero), ← hproduct]

namespace Spectrum

/-! ## Segments -/

/-- So many bins in segments that are full, but for the last one. -/
structure Segmented (r : Spectrum) (bins : ℕ) : Prop where
  count : r.segments.length = (bins + r.binsPerSegment.toNat - 1) / r.binsPerSegment.toNat
  full : ∀ i segment, r.segments[i]? = some segment → i + 1 < r.segments.length →
    segment.length = r.binsPerSegment.toNat
  last : ∀ segment, r.segments.getLast? = some segment →
    1 ≤ segment.length ∧ segment.length ≤ r.binsPerSegment.toNat

section Cut

variable {r : Spectrum} (hcut : r.segments = chunksOf r.binsPerSegment.toNat r.amplitudes)
include hcut

theorem binsPerSegment_pos (hbins : 0 < r.amplitudes.length) : 0 < r.binsPerSegment.toNat := by
  by_contra hzero
  have hnone : r.segments = [] := by
    rw [hcut, chunksOf, if_pos (.inl (Nat.eq_zero_of_not_pos hzero))]
  rw [amplitudes, hnone] at hbins
  exact absurd hbins (by simp)

theorem segments_of_no_bins (hbins : r.amplitudes.length = 0) : r.segments = [] := by
  rw [hcut, List.length_eq_zero_iff.1 hbins, chunksOf_nil]

theorem length_of_getElem?_segments {i : ℕ} {segment : List Float}
    (h : r.segments[i]? = some segment) :
    0 < segment.length ∧ segment.length ≤ r.binsPerSegment.toNat ∧
      (i + 1 < r.segments.length → segment.length = r.binsPerSegment.toNat) := by
  have hbins : 0 < r.amplitudes.length := by
    by_contra hzero
    rw [segments_of_no_bins hcut (Nat.eq_zero_of_not_pos hzero)] at h
    cases h
  have hpos := binsPerSegment_pos hcut hbins
  rw [hcut] at h
  obtain ⟨hstart, hlength⟩ := length_of_getElem?_chunksOf hpos h
  refine ⟨by omega, by omega, fun hnext => ?_⟩
  rw [hcut] at hnext
  obtain ⟨hnextStart, -⟩ := length_of_getElem?_chunksOf hpos (List.getElem?_eq_getElem hnext)
  rw [Nat.mul_succ] at hnextStart
  omega

theorem segmented : r.Segmented r.amplitudes.length where
  count := by
    by_cases hbins : 0 < r.amplitudes.length
    · conv_lhs => rw [hcut]
      exact length_chunksOf_ceil (binsPerSegment_pos hcut hbins) _
    · have hzero := Nat.eq_zero_of_not_pos hbins
      rw [segments_of_no_bins hcut hzero, hzero, List.length_nil]
      exact (Nat.div_eq_zero_iff.2 (by omega)).symm
  full i segment h hnext := (length_of_getElem?_segments hcut h).2.2 hnext
  last segment h := by
    rw [List.getLast?_eq_getElem?] at h
    obtain ⟨hpos, hle, -⟩ := length_of_getElem?_segments hcut h
    exact ⟨hpos, hle⟩

theorem length_segments_le : r.segments.length ≤ r.amplitudes.length := by
  rcases Nat.eq_zero_or_pos r.amplitudes.length with hzero | hbins
  · rw [segments_of_no_bins hcut hzero]
    exact Nat.zero_le _
  · have hone := Nat.le_mul_of_pos_right r.binsPerSegment.toNat hbins
    have hmore := Nat.le_mul_of_pos_left (r.amplitudes.length - 1) (binsPerSegment_pos hcut hbins)
    rw [(segmented hcut).count]
    apply Nat.div_le_of_le_mul
    rw [Nat.mul_sub, Nat.mul_one] at hmore
    omega

end Cut

/-! ## Centres -/

/-- The distance between centres, if there is more than one. -/
def step (r : Spectrum) : Float :=
  (Float.ofNat r.lastCenterHz.toNat - Float.ofNat r.firstCenterHz.toNat) /
    Float.ofNat (r.segments.length - 1)

/-- One centre for each segment, the first one where it is told to be. The steps divide by a number
that is not zero. -/
structure Centred (r : Spectrum) : Prop where
  count : r.centers.length = r.segments.length
  first : ∀ center, r.centers[0]? = some center → center = Float.ofNat r.firstCenterHz.toNat
  spaced : 1 < r.segments.length → ∀ k center, r.centers[k]? = some center →
    center = Float.ofNat r.firstCenterHz.toNat + Float.ofNat k * r.step
  divisor : 1 < r.segments.length → ∃ d : ℚ, d ≠ 0 ∧
    Denotes (Float.ofNat (r.segments.length - 1)) d
  finite : ∀ center ∈ r.centers, isFinite center.toBits = true

theorem centers_of_lt {r : Spectrum} (h : 1 < r.segments.length) :
    r.centers = (List.range r.segments.length).map fun k =>
      Float.ofNat r.firstCenterHz.toNat + Float.ofNat k * r.step := by
  unfold centers
  dsimp only
  rw [if_neg (not_le.2 h)]
  rfl

theorem centers_of_le {r : Spectrum} (h : r.segments.length ≤ 1) :
    r.centers = List.replicate r.segments.length (Float.ofNat r.firstCenterHz.toNat) := by
  unfold centers
  dsimp only
  rw [if_pos h]

theorem length_centers (r : Spectrum) : r.centers.length = r.segments.length := by
  rcases Nat.lt_or_ge 1 r.segments.length with h | h
  · rw [centers_of_lt h, List.length_map, List.length_range]
  · rw [centers_of_le h, List.length_replicate]

theorem within_ofUInt32 (n : UInt32) : Within (Float.ofNat n.toNat) 32 :=
  within_ofNat n.toNat_lt.le (by norm_num)

theorem within_step {r : Spectrum} (h : 1 < r.segments.length)
    (hcount : r.segments.length ≤ 2 ^ 31) : Within r.step 33 := by
  have hdivisor : Denotes (Float.ofNat (r.segments.length - 1)) (r.segments.length - 1 : ℕ) :=
    denotes_ofNat_small (by omega)
  have hone : (1 : ℚ) ≤ (r.segments.length - 1 : ℕ) := by
    exact_mod_cast (by omega : 1 ≤ r.segments.length - 1)
  exact ((within_ofUInt32 _).sub (within_ofUInt32 _) (by norm_num)).div hdivisor hone (by norm_num)

theorem centred {r : Spectrum} (hcount : r.segments.length ≤ 2 ^ 31) : r.Centred where
  count := length_centers r
  first center h := by
    rcases Nat.lt_or_ge 1 r.segments.length with hmany | hfew
    · rw [centers_of_lt hmany, getElem?_map_range] at h
      obtain ⟨step, hstep, -⟩ := within_step hmany hcount
      have hzero : Denotes (Float.ofNat 0 * r.step) 0 := by
        have hproduct := (denotes_ofNat_small (n := 0) (by norm_num)).mul_exact hstep
        rw [Nat.cast_zero, zero_mul, abs_zero] at hproduct
        exact hproduct rounded_zero (two_zpow_pos 1024)
      rw [← h.2]
      exact ofNat_add_of_denotes_zero (r.firstCenterHz.toNat_lt.trans (by norm_num)) hzero
    · rw [centers_of_le hfew] at h
      exact List.eq_of_mem_replicate (List.mem_of_getElem? h)
  spaced hmany k center h := by
    rw [centers_of_lt hmany, getElem?_map_range] at h
    exact h.2.symm
  divisor hmany :=
    ⟨(r.segments.length - 1 : ℕ), by exact_mod_cast (by omega : r.segments.length - 1 ≠ 0),
      denotes_ofNat_small (by omega)⟩
  finite center hmem := by
    rcases Nat.lt_or_ge 1 r.segments.length with hmany | hfew
    · rw [centers_of_lt hmany] at hmem
      obtain ⟨k, hk, rfl⟩ := List.mem_map.1 hmem
      have hindex : Within (Float.ofNat k) 31 :=
        within_ofNat ((List.mem_range.1 hk).le.trans hcount) (by norm_num)
      have hoffset := hindex.mul (within_step hmany hcount) (by norm_num)
      exact (((within_ofUInt32 _).mono (by norm_num)).add hoffset (by norm_num)).isFinite
    · rw [centers_of_le hfew] at hmem
      rw [List.eq_of_mem_replicate hmem]
      exact (within_ofUInt32 _).isFinite

/-! ## Bins -/

/-- The views list so many bins in one order: the codes on the wire are those of the amplitudes, and
every frequency is counted from the start of the segment that has the amplitude. -/
structure Aligned (r : Spectrum) (bins : ℕ) (codes : List UInt8) : Prop where
  amplitude_count : r.amplitudes.length = bins
  frequency_count : r.frequencies.length = bins
  in_order : InOrder 2 (fun code => Float.ofInt (BigEndian.toInt16 code).toInt / 100.0) codes
    r.amplitudes
  bin : ∀ k < bins, ∃ segment center amplitude,
    r.segments[k / r.binsPerSegment.toNat]? = some segment ∧
    r.centers[k / r.binsPerSegment.toNat]? = some center ∧
    segment[k % r.binsPerSegment.toNat]? = some amplitude ∧
    r.amplitudes[k]? = some amplitude ∧
    r.frequencies[k]? = some (center - Float.ofNat r.spanHz.toNat / 2.0 +
      Float.ofNat (k % r.binsPerSegment.toNat) *
        (Float.ofNat r.spanHz.toNat / Float.ofNat r.binsPerSegment.toNat))

/-- The frequencies of the bins of a segment. -/
def binFrequencies (r : Spectrum) (center : Float) (segment : List Float) : List Float :=
  (List.range segment.length).map fun j => center - Float.ofNat r.spanHz.toNat / 2.0 +
    Float.ofNat j * (Float.ofNat r.spanHz.toNat / Float.ofNat (max r.binsPerSegment.toNat 1))

theorem frequencies_eq (r : Spectrum) :
    r.frequencies = (r.centers.zip r.segments).flatMap fun part =>
      r.binFrequencies part.1 part.2 := rfl

theorem length_binFrequencies (r : Spectrum) (center : Float) (segment : List Float) :
    (r.binFrequencies center segment).length = segment.length := by
  rw [binFrequencies, List.length_map, List.length_range]

theorem length_frequencies (r : Spectrum) : r.frequencies.length = r.amplitudes.length := by
  have hsegments : (r.centers.zip r.segments).map Prod.snd = r.segments :=
    List.map_snd_zip (length_centers r).ge
  rw [frequencies_eq, amplitudes, List.length_flatMap, List.length_flatten]
  simp only [length_binFrequencies]
  conv_rhs => rw [← hsegments, List.map_map]
  rfl

section Cut

variable {r : Spectrum} (hcut : r.segments = chunksOf r.binsPerSegment.toNat r.amplitudes)
include hcut

theorem length_le_of_mem_segments {segment : List Float} (h : segment ∈ r.segments) :
    segment.length ≤ r.binsPerSegment.toNat := by
  obtain ⟨i, hi⟩ := List.mem_iff_getElem?.1 h
  exact (length_of_getElem?_segments hcut hi).2.1

/-! Both views are cut alike, so one index leads to one bin. -/

theorem getElem?_amplitudes (hpos : 0 < r.binsPerSegment.toNat) (k : ℕ) :
    r.amplitudes[k]? = r.segments[k / r.binsPerSegment.toNat]?.bind fun segment =>
      segment[k % r.binsPerSegment.toNat]? := by
  have hplaces := getElem?_flatMap_of_full hpos (g := id)
    (fun segment => length_le_of_mem_segments hcut) (segmented hcut).full k
  rw [List.flatMap_id] at hplaces
  exact hplaces

theorem getElem?_frequencies (hpos : 0 < r.binsPerSegment.toNat) (k : ℕ) :
    r.frequencies[k]? = (r.centers.zip r.segments)[k / r.binsPerSegment.toNat]?.bind fun part =>
      (r.binFrequencies part.1 part.2)[k % r.binsPerSegment.toNat]? := by
  rw [frequencies_eq]
  refine getElem?_flatMap_of_full hpos (fun part hpart => ?_) (fun i part hpart hnext => ?_) k
  · rw [length_binFrequencies]
    exact length_le_of_mem_segments hcut (List.of_mem_zip hpart).2
  · rw [length_binFrequencies]
    rw [List.length_zip, length_centers, Nat.min_self] at hnext
    exact (segmented hcut).full i _ (List.getElem?_zip_eq_some.1 hpart).2 hnext

end Cut

theorem aligned {r : Spectrum} {codes : List UInt8}
    (hcut : r.segments = chunksOf r.binsPerSegment.toNat r.amplitudes)
    (horder : InOrder 2 (fun code => amplitudeOfCode (BigEndian.toInt16 code)) codes r.amplitudes) :
    r.Aligned r.amplitudes.length codes where
  amplitude_count := rfl
  frequency_count := length_frequencies r
  in_order := horder
  bin k hk := by
    have hpos := binsPerSegment_pos hcut (Nat.zero_lt_of_lt hk)
    have hamplitude := getElem?_amplitudes hcut hpos k
    rw [List.getElem?_eq_getElem hk] at hamplitude
    obtain ⟨segment, hsegment, hbin⟩ := Option.bind_eq_some_iff.1 hamplitude.symm
    have hcenter : k / r.binsPerSegment.toNat < r.centers.length := by
      rw [length_centers]
      exact (List.getElem?_eq_some_iff.1 hsegment).1
    have hpart : (r.centers.zip r.segments)[k / r.binsPerSegment.toNat]? =
        some (r.centers[k / r.binsPerSegment.toNat], segment) :=
      List.getElem?_zip_eq_some.2 ⟨List.getElem?_eq_getElem hcenter, hsegment⟩
    have hinside : k % r.binsPerSegment.toNat < segment.length :=
      (List.getElem?_eq_some_iff.1 hbin).1
    refine ⟨segment, _, _, hsegment, List.getElem?_eq_getElem hcenter, hbin,
      List.getElem?_eq_getElem hk, ?_⟩
    rw [getElem?_frequencies hcut hpos, hpart, Option.bind_some, binFrequencies, getElem?_map_range,
      max_eq_left hpos]
    exact ⟨hinside, rfl⟩

/-! ## Main result -/

/-- A payload that is accepted is cut into segments of as many bins as it tells. Both axes list its
bins in the order of the wire, each at its distance from the start of its segment. -/
theorem decode_segments_and_axes {h : Header} {r : Spectrum} (hr : decode h = .ok r) :
    let size := announced h.payload 29
    h.payload.length = 29 + size ∧ 2 ∣ size ∧ r.binsPerSegment = uint16At h.payload 19 ∧
      r.Segmented (size / 2) ∧ r.Centred ∧ r.Aligned (size / 2) (h.payload.drop 29) := by
  intro size
  obtain ⟨preamble, hexpect, -⟩ := bind_eq_ok.1 hr
  obtain ⟨kind, hmem, hkind, -⟩ := Header.expect_eq_ok.1 hexpect
  rw [List.mem_singleton.1 hmem] at hkind
  have hlaw := lengthLaw (Header.kind_eq_ok.1 hkind)
  obtain ⟨hlength, hwhole, -⟩ := hlaw.accepted.1 ⟨r, hr⟩
  obtain ⟨hfields, hbins, horder, hcut⟩ := hlaw.holds r hr
  have hcount : r.segments.length ≤ 2 ^ 31 := by
    have hsize : size < 2 ^ 32 := UInt32.toNat_lt _
    exact (length_segments_le hcut).trans (by omega)
  exact ⟨hlength, hwhole, congrArg binsPerSegment hfields, hbins ▸ segmented hcut, centred hcount,
    hbins ▸ aligned hcut horder⟩

/-- Five bins in segments of three. -/
def shortLastSegment : Header where
  tag := "PNN"
  version := 9
  major := 1
  minor := 0
  captureTime := 20
  layout := .standard
  payload := [3, 2, 0, 0, 0, 0, 1] ++ [5, 245, 225, 0] ++ [11, 235, 194, 0] ++ [2, 250, 240, 128] ++
    [0, 3] ++ [0, 150] ++ [0, 1] ++
    declaredBytes [252, 24, 0, 250, 0, 0, 255, 251, 0, 12]

theorem shortLastSegment_axes :
    ∃ r, decode shortLastSegment = .ok r ∧ r.segments.length = 2 ∧ r.amplitudes.length = 5 ∧
      r.frequencies.length = 5 ∧ r.centers[0]? = some (Float.ofNat 100000000) ∧
      ∃ segment, r.segments.getLast? = some segment ∧ 1 ≤ segment.length ∧ segment.length ≤ 3 := by
  have hlaw := lengthLaw (h := shortLastSegment) (by decide)
  obtain ⟨r, hr⟩ := hlaw.accepted.2 (by decide)
  obtain ⟨hfields, -⟩ := hlaw.holds r hr
  obtain ⟨-, -, hbins, hsegmented, hcentred, haligned⟩ := decode_segments_and_axes hr
  have hsize : announced shortLastSegment.payload 29 / 2 = 5 := by decide
  have hthree : r.binsPerSegment.toNat = 3 := by rw [hbins]; decide
  rw [hsize] at hsegmented haligned
  have hcount : r.segments.length = 2 := by rw [hsegmented.count, hthree]
  have hfirst : 0 < r.centers.length := by rw [hcentred.count, hcount]; norm_num
  have hnonempty : r.segments ≠ [] := List.ne_nil_of_length_pos (by omega)
  have hlast := List.getLast?_eq_some_getLast hnonempty
  refine ⟨r, hr, hcount, haligned.amplitude_count, haligned.frequency_count, ?_, _, hlast,
    hthree ▸ hsegmented.last _ hlast⟩
  rw [List.getElem?_eq_getElem hfirst, hcentred.first _ (List.getElem?_eq_getElem hfirst), hfields]
  rfl

end Spectrum

end CableCapture
