import CableCapture.Envelope
import CableCapture.Proofs.Chunks
import CableCapture.Proofs.Numeric.Folds

/-!
# Envelopes of series

Series have an envelope if they agree in length with the first of them. It is made of columns, the
values of all series at one place. Where these are quarters, every rounded average lies between the
rounded extremes of its column.
-/

namespace CableCapture

namespace Envelope

/-! ## Columns -/

section Columns

variable {α β : Type}

/-- The values of several series at one place. -/
def column (series : List (List α)) (i : ℕ) : List α :=
  series.filterMap fun values => values[i]?

theorem column_cons {values : List α} {rest : List (List α)} {i : ℕ} (hi : i < values.length) :
    column (values :: rest) i = values[i] :: column rest i :=
  List.filterMap_cons_some (List.getElem?_eq_getElem hi)

theorem column_map (g : α → β) (series : List (List α)) (i : ℕ) :
    column (series.map (List.map g)) i = (column series i).map g := by
  unfold column
  rw [List.filterMap_map, List.map_filterMap]
  simp only [Function.comp_def, List.getElem?_map]

theorem length_column {width i : ℕ} {series : List (List α)} (hi : i < width)
    (h : ∀ values ∈ series, values.length = width) : (column series i).length = series.length := by
  induction series with
  | nil => rfl
  | cons values rest ih =>
    obtain ⟨hvalues, hrest⟩ := List.forall_mem_cons.1 h
    rw [column_cons (hi.trans_eq hvalues.symm), List.length_cons, List.length_cons, ih hrest]

/-- Combining series place by place folds their columns. -/
theorem getElem?_foldl_zipWith (f : α → α → α) {acc : List α} {series : List (List α)}
    (h : ∀ values ∈ series, values.length = acc.length) (i : ℕ) :
    (series.foldl (List.zipWith f) acc)[i]? = acc[i]?.map fun a => (column series i).foldl f a := by
  induction series generalizing acc with
  | nil => simp [column]
  | cons values rest ih =>
    obtain ⟨hvalues, hrest⟩ := List.forall_mem_cons.1 h
    have hlen : (List.zipWith f acc values).length = acc.length := by simp [hvalues]
    rw [List.foldl_cons, ih (hlen ▸ hrest)]
    rcases lt_or_ge i acc.length with hi | hi
    · have hvalue : i < values.length := hi.trans_eq hvalues.symm
      rw [column_cons hvalue, List.getElem?_zipWith, List.getElem?_eq_getElem hi,
        List.getElem?_eq_getElem hvalue]
      rfl
    · rw [List.getElem?_eq_none hi, List.getElem?_eq_none (hlen ▸ hi)]
      rfl

theorem combine_eq (f : α → α → α) (start : α) {width : ℕ} {series : List (List α)}
    (h : ∀ values ∈ series, values.length = width) :
    combine f start width series =
      (List.range width).map fun i => (column series i).foldl f start := by
  apply List.ext_getElem?
  intro i
  unfold combine
  rw [getElem?_foldl_zipWith f (by simpa using h), List.getElem?_map, List.getElem?_replicate]
  by_cases hi : i < width
  · rw [if_pos hi, List.getElem?_range hi]
    rfl
  · rw [if_neg hi, List.getElem?_eq_none (by simpa using hi)]
    rfl

theorem map_combine (g : α → β) (f : α → α → α) (start : α) {width : ℕ} {series : List (List α)}
    (h : ∀ values ∈ series, values.length = width) :
    (combine f start width series).map g =
      (List.range width).map fun i => g ((column series i).foldl f start) := by
  rw [combine_eq f start h, List.map_map]
  rfl

end Columns

open Binary64

theorem value_foldl_add (a : SignedNumber) (xs : List Float) :
    ((xs.map SignedNumber.ofFloat).foldl SignedNumber.add a).value = xs.foldl (· + ·) a.value := by
  induction xs generalizing a with
  | nil => rfl
  | cons x rest ih =>
    rw [List.map_cons, List.foldl_cons, ih, List.foldl_cons, SignedNumber.value_add,
      SignedNumber.value_ofFloat]

theorem averages_eq {places : UInt32} {series : List (List Float)} {width : ℕ}
    (h : ∀ values ∈ series, values.length = width) :
    (averages width places (series.map (List.map SignedNumber.ofFloat))).map SignedNumber.value =
      (List.range width).map fun i =>
        roundTo places ((column series i).foldl (· + ·) 0.0 / Float.ofNat series.length) := by
  have hwidth : ∀ numbers ∈ series.map (List.map SignedNumber.ofFloat),
      numbers.length = width := by simpa using h
  unfold averages
  simp only [map_combine _ _ _ hwidth, List.map_map, Function.comp_def, SignedNumber.value_map,
    column_map, value_foldl_add, SignedNumber.value_ofFloat, List.length_map]

/-! ## Envelopes -/

/-- A row counts its series, and its values come from their columns. -/
structure Columns (row : Envelope) (channel : UInt8) (places : UInt32) (series : List (List Float))
    (width : ℕ) : Prop where
  channel : row.channel = channel
  captureCount : row.captureCount = series.length
  least : row.least.values = (List.range width).map fun i =>
    roundTo places ((column series i).foldl Binary64.least infinity)
  average : row.average.values = (List.range width).map fun i =>
    roundTo places ((column series i).foldl (· + ·) 0.0 / Float.ofNat series.length)
  greatest : row.greatest.values = (List.range width).map fun i =>
    roundTo places ((column series i).foldl Binary64.greatest (-infinity))

/-- The length of the first series decides. -/
theorem compute_cases (channel : UInt8) (places : UInt32) (series : List (List Float)) :
    (∃ values ∈ series, values.length ≠ (series.headD []).length ∧
      compute channel places series = .error
        (.lengthMismatch (.unequalSeries channel (series.headD []).length values.length))) ∨
    (∀ values ∈ series, values.length = (series.headD []).length) ∧
      ∃ row, compute channel places series = .ok row ∧
        row.Columns channel places series (series.headD []).length := by
  have hhead : ((series.map (List.map SignedNumber.ofFloat)).headD []).length =
      (series.headD []).length := by
    cases series with
    | nil => rfl
    | cons first rest => exact List.length_map _
  have hvalues : (series.map (List.map SignedNumber.ofFloat)).map (List.map SignedNumber.value) =
      series := by simp [Function.comp_def]
  unfold compute ofNumbers
  simp only [hhead, hvalues]
  split
  · rename_i other hother
    left
    obtain ⟨values, hmem, rfl⟩ := List.mem_map.1 (List.mem_of_find?_eq_some hother)
    have hlength := List.find?_some hother
    rw [List.length_map] at hlength ⊢
    exact ⟨values, hmem, of_decide_eq_true hlength, rfl⟩
  · rename_i hnone
    have hlength : ∀ values ∈ series, values.length = (series.headD []).length := by
      simpa using hnone
    right
    refine ⟨hlength, _, rfl, rfl, List.length_map _, ?_, averages_eq hlength, ?_⟩
    · exact map_combine _ _ _ hlength
    · exact map_combine _ _ _ hlength

/-! ### Columns of quarters -/

/-- What a row says about series of this width. Rounding moves none of its values by more than half a
unit of the last place and the errors of scaling. -/
structure Summarizes (row : Envelope) (places : UInt32) (series : List (List Float))
    (width : ℕ) : Prop where
  length_least : row.least.values.length = width
  length_average : row.average.values.length = width
  length_greatest : row.greatest.values.length = width
  least : ∀ i < width, ∃ x, Extreme (· ≤ ·) (column series i) x ∧
    row.least.values[i]? = some (roundTo places x) ∧
      |value (roundTo places x) - value x| ≤ tolerance places (value x)
  /-- The mean is rounded to a float first. -/
  average : ∀ i < width, ∃ x,
    Denotes x (rounded (((column series i).map value).sum / series.length)) ∧
      row.average.values[i]? = some (roundTo places x) ∧
        |value (roundTo places x) - value x| ≤ tolerance places (value x)
  greatest : ∀ i < width, ∃ x, Extreme (· ≥ ·) (column series i) x ∧
    row.greatest.values[i]? = some (roundTo places x) ∧
      |value (roundTo places x) - value x| ≤ tolerance places (value x)
  ordered : ∀ (i : ℕ) low middle high, row.least.values[i]? = some low →
    row.average.values[i]? = some middle → row.greatest.values[i]? = some high →
      low ≤ middle ∧ middle ≤ high
  /-- Nothing is left of the infinities that the comparisons started with. -/
  finite : ∀ trace ∈ [row.least, row.average, row.greatest], ∀ x ∈ trace.values,
    isFinite x.toBits = true

theorem averageable_column {series : List (List Float)} {width bound : ℕ} (hne : series ≠ [])
    (h : ∀ values ∈ series, values.length = width)
    (hseries : ∀ values ∈ series, ∀ x ∈ values, Quarters bound x)
    (hlen : series.length < 2 ^ 53) (hsum : bound * series.length < 2 ^ 53) {i : ℕ}
    (hi : i < width) : Averageable bound (column series i) := by
  have hlength := length_column hi h
  refine ⟨?_, fun x hx => ?_, hlength ▸ hlen, hlength ▸ hsum⟩
  · rw [← List.length_pos_iff, hlength]
    exact List.length_pos_iff.2 hne
  · obtain ⟨values, hvalues, hx⟩ := List.mem_filterMap.1 hx
    exact hseries values hvalues x (List.mem_of_getElem? hx)

theorem Columns.summarizes {row : Envelope} {channel : UInt8} {places : UInt32}
    {series : List (List Float)} {width bound : ℕ} (hrow : row.Columns channel places series width)
    (hlength : ∀ i < width, (column series i).length = series.length)
    (h : ∀ i < width, Averageable bound (column series i)) :
    row.Summarizes places series width where
  length_least := by simp [hrow.least]
  length_average := by simp [hrow.average]
  length_greatest := by simp [hrow.greatest]
  least i hi := by
    refine ⟨_, (h i hi).extreme_least, ?_,
      (h i hi).abs_roundTo_sub_le_of_mem (h i hi).extreme_least.mem⟩
    rw [hrow.least, getElem?_map_range]
    exact ⟨hi, rfl⟩
  average i hi := by
    refine ⟨_, hlength i hi ▸ (h i hi).denotes_mean, ?_, (h i hi).abs_roundTo_mean_sub_le⟩
    rw [hrow.average, getElem?_map_range, hlength i hi]
    exact ⟨hi, rfl⟩
  greatest i hi := by
    refine ⟨_, (h i hi).extreme_greatest, ?_,
      (h i hi).abs_roundTo_sub_le_of_mem (h i hi).extreme_greatest.mem⟩
    rw [hrow.greatest, getElem?_map_range]
    exact ⟨hi, rfl⟩
  ordered i low middle high hlow hmiddle hhigh := by
    rw [hrow.least, getElem?_map_range] at hlow
    rw [hrow.average, getElem?_map_range] at hmiddle
    rw [hrow.greatest, getElem?_map_range] at hhigh
    obtain ⟨hi, rfl⟩ := hlow
    obtain ⟨-, rfl⟩ := hmiddle
    obtain ⟨-, rfl⟩ := hhigh
    rw [← hlength i hi]
    exact ⟨(h i hi).roundTo_least_le_mean, (h i hi).roundTo_mean_le_greatest⟩
  finite := by
    have hleast : ∀ x ∈ row.least.values, isFinite x.toBits = true := by
      rw [hrow.least, forall_mem_map_range]
      exact fun i hi => (h i hi).isFinite_roundTo_of_mem (h i hi).extreme_least.mem
    have haverage : ∀ x ∈ row.average.values, isFinite x.toBits = true := by
      rw [hrow.average, forall_mem_map_range]
      intro i hi
      rw [← hlength i hi]
      exact (h i hi).isFinite_roundTo_mean
    have hgreatest : ∀ x ∈ row.greatest.values, isFinite x.toBits = true := by
      rw [hrow.greatest, forall_mem_map_range]
      exact fun i hi => (h i hi).isFinite_roundTo_of_mem (h i hi).extreme_greatest.mem
    simpa using ⟨hleast, haverage, hgreatest⟩

end Envelope

end CableCapture
