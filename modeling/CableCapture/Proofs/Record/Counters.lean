import CableCapture.Record.FecSummary
import Mathlib.Algebra.BigOperators.Group.List.Lemmas
import Mathlib.Algebra.Order.BigOperators.Group.List
import Mathlib.Tactic.Linarith

/-!
# Sums of counters

Counters form a commutative monoid, and totals by profile are sums in it. So neither the order of the
sets matters nor how they are grouped, and merging totals is the same as totalling what was merged.
-/

namespace CableCapture

/-! ## Counters -/

namespace CodewordCounts

instance : Add CodewordCounts := ⟨add⟩

instance : Zero CodewordCounts := ⟨zero⟩

theorem add_def (a b : CodewordCounts) :
    a + b = ⟨a.total + b.total, a.corrected + b.corrected, a.uncorrectable + b.uncorrectable⟩ := rfl

theorem zero_def : (0 : CodewordCounts) = ⟨0, 0, 0⟩ := rfl

instance : AddCommMonoid CodewordCounts where
  add_assoc a b c := by simp only [add_def, UInt64.add_assoc]
  zero_add a := by simp only [add_def, zero_def, UInt64.zero_add]
  add_zero a := by simp only [add_def, zero_def, UInt64.add_zero]
  add_comm a b := by
    simp only [add_def, UInt64.add_comm a.total, UInt64.add_comm a.corrected,
      UInt64.add_comm a.uncorrectable]
  nsmul := nsmulRec

end CodewordCounts

/-- One of the counters that totals keep. -/
inductive Counter where
  | total
  | corrected
  | uncorrectable
deriving DecidableEq, Repr

namespace Counter

def ofSet (s : CodewordSet) : Counter → ℕ
  | total => s.total.toNat
  | corrected => s.corrected.toNat
  | uncorrectable => s.uncorrectable.toNat

def ofCounts (c : CodewordCounts) : Counter → ℕ
  | total => c.total.toNat
  | corrected => c.corrected.toNat
  | uncorrectable => c.uncorrectable.toNat

variable (counter : Counter)

/-- The exact sum of a counter. -/
def sum (sets : List CodewordSet) : ℕ :=
  (sets.map fun s => counter.ofSet s).sum

theorem ofSet_lt (s : CodewordSet) : counter.ofSet s < 2 ^ 32 := by
  cases counter <;> exact UInt32.toNat_lt _

theorem ofCounts_counts (s : CodewordSet) : counter.ofCounts s.counts = counter.ofSet s := by
  cases counter <;> rfl

theorem ofCounts_add (a b : CodewordCounts) :
    counter.ofCounts (a + b) = (counter.ofCounts a + counter.ofCounts b) % 2 ^ 64 := by
  cases counter <;> exact UInt64.toNat_add _ _

theorem ofCounts_sum (sets : List CodewordSet) :
    counter.ofCounts (sets.map CodewordSet.counts).sum = counter.sum sets % 2 ^ 64 := by
  induction sets with
  | nil => cases counter <;> rfl
  | cons s rest ih =>
    rw [List.map_cons, List.sum_cons, ofCounts_add, ofCounts_counts, ih, Nat.add_mod_mod]
    rfl

theorem sum_append (sets others : List CodewordSet) :
    counter.sum (sets ++ others) = counter.sum sets + counter.sum others := by
  unfold sum
  rw [List.map_append, List.sum_append]

end Counter

/-! ## Look-up -/

namespace FecTotals

variable {totals other : FecTotals} {profile : UInt8}

theorem getElem?_add (totals : FecTotals) (key profile : UInt8) (counts : CodewordCounts) :
    (totals.add key counts)[profile]? =
      if key = profile then some (totals[profile]?.getD 0 + counts) else totals[profile]? := by
  unfold add
  rw [Std.ExtTreeMap.getElem?_alter]
  simp only [Std.LawfulEqOrd.compare_eq_iff_eq]
  split
  · rename_i hkey
    rw [hkey]
    rfl
  · rfl

/-- Adds counters one after another, each to those of its profile. -/
def addAll (totals : FecTotals) (entries : List (UInt8 × CodewordCounts)) : FecTotals :=
  entries.foldl (fun totals entry => totals.add entry.1 entry.2) totals

/-- What these entries add to a profile. -/
def added (entries : List (UInt8 × CodewordCounts)) (profile : UInt8) : CodewordCounts :=
  ((entries.filter fun entry => entry.1 = profile).map Prod.snd).sum

theorem mem_add {key : UInt8} {counts : CodewordCounts} :
    profile ∈ totals.add key counts ↔ key = profile ∨ profile ∈ totals := by
  rw [Std.ExtTreeMap.mem_iff_isSome_getElem?, getElem?_add, Std.ExtTreeMap.mem_iff_isSome_getElem?]
  split
  · rename_i hkey
    simp [hkey]
  · rename_i hkey
    simp [hkey]

/-- An entry changes the counters of its own profile. -/
theorem getElem?_addAll (totals : FecTotals) (entries : List (UInt8 × CodewordCounts))
    (profile : UInt8) :
    (totals.addAll entries)[profile]? =
      if profile ∈ totals ∨ profile ∈ entries.map Prod.fst then
        some (totals[profile]?.getD 0 + added entries profile)
      else none := by
  induction entries generalizing totals with
  | nil =>
    simp only [addAll, List.foldl_nil, List.map_nil, List.not_mem_nil, or_false, added,
      List.filter_nil, List.sum_nil, add_zero]
    split
    · rename_i hmem
      rw [Std.ExtTreeMap.getElem?_eq_some_getElem hmem]
      rfl
    · rename_i hmem
      exact Std.ExtTreeMap.getElem?_eq_none hmem
  | cons entry rest ih =>
    obtain ⟨key, counts⟩ := entry
    have hstep : totals.addAll ((key, counts) :: rest) = (totals.add key counts).addAll rest := rfl
    rw [hstep, ih, getElem?_add]
    simp only [mem_add, List.map_cons, List.mem_cons]
    by_cases hkey : key = profile
    · have hadded : added ((key, counts) :: rest) profile = counts + added rest profile := by
        simp [added, hkey]
      rw [if_pos (.inl (.inl hkey)), if_pos hkey, if_pos (.inr (.inl hkey.symm)), hadded,
        Option.getD_some, add_assoc]
    · have hadded : added ((key, counts) :: rest) profile = added rest profile := by
        simp [added, hkey]
      rw [if_neg hkey, hadded]
      simp only [hkey, Ne.symm hkey, false_or]

/-- What a map adds to a profile is what it has there. -/
theorem added_toList (totals : FecTotals) (profile : UInt8) :
    added totals.toList profile = totals[profile]?.getD 0 := by
  have hperm : (totals.toList.filter fun entry => entry.1 = profile).Perm
      (totals[profile]?.toList.map fun counts => (profile, counts)) := by
    have hnodup : totals.toList.Nodup := by
      apply List.Nodup.of_map Prod.fst
      rw [Std.ExtTreeMap.map_fst_toList_eq_keys]
      exact Std.ExtTreeMap.nodup_keys
    have hsingle : (totals[profile]?.toList.map fun counts => (profile, counts)).Nodup := by
      cases totals[profile]? <;> simp
    refine (List.perm_ext_iff_of_nodup (hnodup.filter _) hsingle).2 fun entry => ?_
    rw [List.mem_filter, Std.ExtTreeMap.mem_toList_iff_getElem?_eq_some, decide_eq_true_eq,
      List.mem_map]
    constructor
    · rintro ⟨hentry, rfl⟩
      exact ⟨entry.2, by rw [hentry]; simp, rfl⟩
    · rintro ⟨counts, hcounts, rfl⟩
      exact ⟨Option.mem_toList.1 hcounts, rfl⟩
  rw [added, (hperm.map Prod.snd).sum_eq]
  cases totals[profile]? <;> simp

theorem merge_eq (totals other : FecTotals) : totals.merge other = totals.addAll other.toList :=
  Std.ExtTreeMap.foldl_eq_foldl_toList

/-- Merging adds profile by profile. -/
theorem getElem?_merge (totals other : FecTotals) (profile : UInt8) :
    (totals.merge other)[profile]? =
      if profile ∈ totals ∨ profile ∈ other then
        some (totals[profile]?.getD 0 + other[profile]?.getD 0)
      else none := by
  rw [merge_eq, getElem?_addAll, added_toList]
  simp only [Std.ExtTreeMap.map_fst_toList_eq_keys, Std.ExtTreeMap.mem_keys]

theorem merge_empty (totals : FecTotals) : merge ∅ totals = totals := by
  apply Std.ExtTreeMap.ext_getElem?
  intro profile
  rw [getElem?_merge]
  by_cases hmem : profile ∈ totals
  · rw [if_pos (.inr hmem), Std.ExtTreeMap.getElem?_eq_some_getElem hmem]
    simp
  · rw [if_neg, Std.ExtTreeMap.getElem?_eq_none hmem]
    simpa using hmem

/-! ## Totals of profiles -/

/-- All sets of a profile, wherever it occurs. -/
def setsOf (profiles : List FecProfile) (profile : UInt8) : List CodewordSet :=
  (profiles.filter fun p => p.profile = profile).flatMap FecProfile.sets

/-- What a profile adds: nothing, so that it is listed, and then its sets. -/
def entriesOf (p : FecProfile) : List (UInt8 × CodewordCounts) :=
  (p.profile, 0) :: p.sets.map fun s => (p.profile, s.counts)

theorem addProfile_eq (totals : FecTotals) (p : FecProfile) :
    totals.addProfile p = totals.addAll (entriesOf p) := by
  unfold addProfile addAll entriesOf
  rw [List.foldl_cons, List.foldl_map]
  rfl

theorem ofProfiles_eq (profiles : List FecProfile) :
    ofProfiles profiles = addAll ∅ (profiles.flatMap entriesOf) := by
  unfold ofProfiles addAll
  rw [List.foldl_flatMap]
  congr 1
  funext totals p
  exact addProfile_eq totals p

theorem setsOf_cons (p : FecProfile) (rest : List FecProfile) (profile : UInt8) :
    setsOf (p :: rest) profile =
      if p.profile = profile then p.sets ++ setsOf rest profile else setsOf rest profile := by
  unfold setsOf
  split
  · rename_i hsame
    simp [hsame]
  · rename_i hother
    simp [hother]

theorem setsOf_append (profiles others : List FecProfile) (profile : UInt8) :
    setsOf (profiles ++ others) profile = setsOf profiles profile ++ setsOf others profile := by
  unfold setsOf
  rw [List.filter_append, List.flatMap_append]

theorem added_append (entries others : List (UInt8 × CodewordCounts)) (profile : UInt8) :
    added (entries ++ others) profile = added entries profile + added others profile := by
  unfold added
  rw [List.filter_append, List.map_append, List.sum_append]

theorem added_entriesOf (p : FecProfile) (profile : UInt8) :
    added (entriesOf p) profile =
      if p.profile = profile then (p.sets.map CodewordSet.counts).sum else 0 := by
  unfold added entriesOf
  split
  · rename_i hsame
    simp [hsame, List.filter_map, Function.comp_def]
  · rename_i hother
    simp [hother, List.filter_map, Function.comp_def]

theorem added_flatMap_entriesOf (profiles : List FecProfile) (profile : UInt8) :
    added (profiles.flatMap entriesOf) profile =
      ((setsOf profiles profile).map CodewordSet.counts).sum := by
  induction profiles with
  | nil => rfl
  | cons p rest ih =>
    rw [List.flatMap_cons, added_append, added_entriesOf, ih, setsOf_cons]
    split
    · rw [List.map_append, List.sum_append]
    · rw [zero_add]

/-- A profile that occurs has the sum of all its sets. -/
theorem getElem?_ofProfiles (profiles : List FecProfile) (profile : UInt8) :
    (ofProfiles profiles)[profile]? =
      if ∃ p ∈ profiles, p.profile = profile then
        some ((setsOf profiles profile).map CodewordSet.counts).sum
      else none := by
  have hkeys : profile ∈ (profiles.flatMap entriesOf).map Prod.fst ↔
      ∃ p ∈ profiles, p.profile = profile := by
    simp only [List.mem_map, List.mem_flatMap, entriesOf, List.mem_cons]
    constructor
    · rintro ⟨entry, ⟨p, hp, rfl | ⟨s, -, rfl⟩⟩, rfl⟩
      · exact ⟨p, hp, rfl⟩
      · exact ⟨p, hp, rfl⟩
    · rintro ⟨p, hp, rfl⟩
      exact ⟨(p.profile, 0), ⟨p, hp, .inl rfl⟩, rfl⟩
  rw [ofProfiles_eq, getElem?_addAll, added_flatMap_entriesOf]
  simp only [Std.ExtTreeMap.not_mem_empty, false_or, hkeys, Std.ExtTreeMap.getElem?_empty,
    Option.getD_none, zero_add]

theorem mem_ofProfiles {profiles : List FecProfile} :
    profile ∈ ofProfiles profiles ↔ ∃ p ∈ profiles, p.profile = profile := by
  rw [Std.ExtTreeMap.mem_iff_isSome_getElem?, getElem?_ofProfiles]
  split <;> simp_all

theorem getD_ofProfiles (profiles : List FecProfile) (profile : UInt8) :
    (ofProfiles profiles)[profile]?.getD 0 =
      ((setsOf profiles profile).map CodewordSet.counts).sum := by
  rw [getElem?_ofProfiles]
  split
  · rfl
  · rename_i habsent
    have hnone : profiles.filter (fun p => p.profile = profile) = [] := by
      rw [List.filter_eq_nil_iff]
      intro p hp hsame
      exact habsent ⟨p, hp, of_decide_eq_true hsame⟩
    rw [setsOf, hnone]
    rfl

/-- Merged totals are the totals of all profiles together. -/
theorem merge_ofProfiles (profiles others : List FecProfile) :
    (ofProfiles profiles).merge (ofProfiles others) = ofProfiles (profiles ++ others) := by
  apply Std.ExtTreeMap.ext_getElem?
  intro profile
  rw [getElem?_merge, getD_ofProfiles, getD_ofProfiles, getElem?_ofProfiles, setsOf_append,
    List.map_append, List.sum_append]
  simp only [mem_ofProfiles, List.mem_append, or_and_right, exists_or]

theorem foldl_merge (summaries : List FecSummary) :
    summaries.foldl (fun totals summary => totals.merge summary.totals) ∅ =
      ofProfiles (summaries.flatMap FecSummary.profiles) := by
  induction summaries using List.reverseRecOn with
  | nil => rfl
  | append_singleton summaries last ih =>
    rw [List.foldl_concat, ih, FecSummary.totals, merge_ofProfiles, List.flatMap_append,
      List.flatMap_singleton]

/-! ## Order -/

/-- The same profiles with the same sets, both in any order. -/
def Reordered (profiles others : List FecProfile) : Prop :=
  ∃ middle, profiles.Perm middle ∧
    List.Forall₂ (fun p q => p.profile = q.profile ∧ p.sets.Perm q.sets) middle others

theorem Reordered.setsOf_perm {profiles others : List FecProfile} (h : Reordered profiles others)
    (profile : UInt8) : (setsOf profiles profile).Perm (setsOf others profile) := by
  obtain ⟨middle, hperm, hsets⟩ := h
  refine ((hperm.filter _).flatMap_right _).trans ?_
  change (setsOf middle profile).Perm (setsOf others profile)
  clear hperm
  induction hsets with
  | nil => exact .refl _
  | @cons p q _ _ hsame _ ih =>
    rw [setsOf_cons, setsOf_cons, hsame.1]
    split
    · exact hsame.2.append ih
    · exact ih

theorem Reordered.exists_iff {profiles others : List FecProfile} (h : Reordered profiles others)
    (profile : UInt8) :
    (∃ p ∈ profiles, p.profile = profile) ↔ ∃ p ∈ others, p.profile = profile := by
  obtain ⟨middle, hperm, hsets⟩ := h
  simp only [hperm.mem_iff]
  clear hperm
  induction hsets with
  | nil => rfl
  | @cons p q _ _ hsame _ ih => simp only [List.mem_cons, exists_eq_or_imp, hsame.1, ih]

theorem Reordered.ofProfiles_eq {profiles others : List FecProfile} (h : Reordered profiles others) :
    ofProfiles profiles = ofProfiles others := by
  apply Std.ExtTreeMap.ext_getElem?
  intro profile
  simp only [getElem?_ofProfiles, h.exists_iff, ((h.setsOf_perm profile).map _).sum_eq]

/-! ## Accounts -/

/-- What totals say about profiles, in the range where sums do not wrap. -/
structure Tally (totals : FecTotals) (profiles : List FecProfile) : Prop where
  /-- Profiles are listed once, in ascending order. -/
  ordered : (totals.toList.map Prod.fst).Pairwise (· < ·)
  /-- Those that occur are listed, with or without sets. -/
  listed : ∀ profile, profile ∈ totals.toList.map Prod.fst ↔ ∃ p ∈ profiles, p.profile = profile
  /-- Every counter of a profile is the sum over all its sets. -/
  counted : ∀ profile counts (counter : Counter), (profile, counts) ∈ totals.toList →
    counter.sum (setsOf profiles profile) < 2 ^ 64 →
      counter.ofCounts counts = counter.sum (setsOf profiles profile)
  /-- All profiles together have the sum over all sets. -/
  conserved : ∀ counter : Counter,
    (∀ profile, counter.sum (setsOf profiles profile) < 2 ^ 64) →
      (totals.toList.map fun entry => counter.ofCounts entry.2).sum =
        counter.sum (profiles.flatMap FecProfile.sets)

/-- Sums by profile add up to the sum over everything, if every profile has one turn. -/
theorem sum_map_sum_setsOf (counter : Counter) {turns : List UInt8} (hnodup : turns.Nodup)
    (profiles : List FecProfile) (hturns : ∀ p ∈ profiles, p.profile ∈ turns) :
    (turns.map fun profile => counter.sum (setsOf profiles profile)).sum =
      counter.sum (profiles.flatMap FecProfile.sets) := by
  induction profiles with
  | nil =>
    have hzero : (fun profile => counter.sum (setsOf [] profile)) = fun _ => 0 := rfl
    rw [hzero, List.map_const', List.sum_replicate]
    rfl
  | cons p rest ih =>
    have hturn := hturns p List.mem_cons_self
    have hsplit : (fun profile => counter.sum (setsOf (p :: rest) profile)) = fun profile =>
        (if profile = p.profile then counter.sum p.sets else 0) +
          counter.sum (setsOf rest profile) := by
      funext profile
      rw [setsOf_cons]
      by_cases hsame : profile = p.profile
      · rw [if_pos hsame.symm, if_pos hsame, Counter.sum_append]
      · rw [if_neg (Ne.symm hsame), if_neg hsame, zero_add]
    have hone : (turns.map fun profile => if profile = p.profile then counter.sum p.sets else 0).sum =
        counter.sum p.sets := by
      rw [List.sum_map_eq_nsmul_single p.profile _ fun profile hother _ => if_neg hother,
        List.count_eq_one_of_mem hnodup hturn, if_pos rfl, one_nsmul]
    rw [hsplit, List.sum_map_add, hone, ih fun q hq => hturns q (List.mem_cons_of_mem p hq),
      List.flatMap_cons, Counter.sum_append]

theorem ofCounts_of_mem {profiles : List FecProfile} {counts : CodewordCounts}
    (hmem : (profile, counts) ∈ (ofProfiles profiles).toList) (counter : Counter)
    (hrange : counter.sum (setsOf profiles profile) < 2 ^ 64) :
    counter.ofCounts counts = counter.sum (setsOf profiles profile) := by
  rw [Std.ExtTreeMap.mem_toList_iff_getElem?_eq_some] at hmem
  have hcounts := getD_ofProfiles profiles profile
  rw [hmem, Option.getD_some] at hcounts
  rw [hcounts, Counter.ofCounts_sum, Nat.mod_eq_of_lt hrange]

theorem tally_ofProfiles (profiles : List FecProfile) :
    Tally (ofProfiles profiles) profiles where
  ordered := by
    rw [Std.ExtTreeMap.map_fst_toList_eq_keys]
    exact Std.ExtTreeMap.ordered_keys.imp Std.compare_eq_lt.1
  listed profile := by
    rw [Std.ExtTreeMap.map_fst_toList_eq_keys, Std.ExtTreeMap.mem_keys, mem_ofProfiles]
  counted profile counts counter hmem hrange := ofCounts_of_mem hmem counter hrange
  conserved counter hrange := by
    have hcounts : ((ofProfiles profiles).toList.map fun entry => counter.ofCounts entry.2) =
        (ofProfiles profiles).keys.map fun profile => counter.sum (setsOf profiles profile) := by
      rw [← Std.ExtTreeMap.map_fst_toList_eq_keys, List.map_map]
      exact List.map_congr_left fun entry hentry => ofCounts_of_mem hentry counter (hrange _)
    rw [hcounts]
    refine sum_map_sum_setsOf counter Std.ExtTreeMap.nodup_keys profiles fun p hp => ?_
    exact Std.ExtTreeMap.mem_keys.2 (mem_ofProfiles.2 ⟨p, hp, rfl⟩)

end FecTotals

end CableCapture
