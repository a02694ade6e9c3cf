import Mathlib.Data.List.Basic

/-!
# Stable sorts by several keys

Sorting by one key after another orders by the last key, its ties by the key before it, and leaves
members that tie under all keys as they were. Only one rearrangement does that, so sorts that order
alike give the same list, however many of them there were.
-/

namespace CableCapture

/-! ## One key -/

section Key

variable {α κ : Type} [LE κ] [DecidableLE κ] [Std.IsLinearPreorder κ] (key : α → κ)

theorem le_key_trans (a b c : α) :
    decide (key a ≤ key b) → decide (key b ≤ key c) → decide (key a ≤ key c) := by
  simp only [decide_eq_true_eq]
  exact Std.le_trans

theorem le_key_total (a b : α) : decide (key a ≤ key b) || decide (key b ≤ key a) := by
  simp only [Bool.or_eq_true, decide_eq_true_eq]
  exact Std.le_total

theorem pairwise_mergeSort_key (l : List α) :
    (l.mergeSort fun a b => key a ≤ key b).Pairwise fun a b => key a ≤ key b :=
  (List.pairwise_mergeSort (le_key_trans key) (le_key_total key) l).imp of_decide_eq_true

variable {key}

/-- Members with one key come out of a stable sort as they went in. -/
theorem filter_mergeSort {p : α → Bool} (tie : ∀ a b, p a → p b → key a = key b) (l : List α) :
    (l.mergeSort fun a b => key a ≤ key b).filter p = l.filter p := by
  have hpairwise : (l.filter p).Pairwise fun a b => decide (key a ≤ key b) := by
    apply List.pairwise_of_forall_mem_list
    intro a ha b hb
    rw [tie a b (List.mem_filter.1 ha).2 (List.mem_filter.1 hb).2]
    exact decide_eq_true (Std.le_refl _)
  have hsublist := List.sublist_mergeSort (le_key_trans key) (le_key_total key) hpairwise
    List.filter_sublist
  have hkept := hsublist.filter p
  rw [List.filter_filter] at hkept
  simp only [Bool.and_self] at hkept
  refine (hkept.eq_of_length ?_).symm
  exact ((List.mergeSort_perm l _).filter p).length_eq.symm

end Key

/-! ## Several keys -/

variable {α : Type} {key : α → Nat} {keys : List (α → Nat)} {a b : α}

/-- The first key decides, where it ties the second one, and so on. -/
def Precedes : List (α → Nat) → α → α → Prop
  | [], _, _ => True
  | key :: keys, a, b => key a < key b ∨ key a = key b ∧ Precedes keys a b

/-- No key tells the two apart. -/
def ties (keys : List (α → Nat)) (a b : α) : Bool :=
  keys.all fun key => key a = key b

theorem ties_iff : ties keys a b = true ↔ ∀ key ∈ keys, key a = key b := by
  unfold ties
  rw [List.all_eq_true]
  simp only [decide_eq_true_eq]

theorem ties_self (keys : List (α → Nat)) (a : α) : ties keys a a = true :=
  ties_iff.2 fun _ _ => rfl

theorem key_eq_of_ties {c : α} (h : key ∈ keys) (ha : ties keys c a) (hb : ties keys c b) :
    key a = key b :=
  (ties_iff.1 ha key h).symm.trans (ties_iff.1 hb key h)

theorem Precedes.ties (hab : Precedes keys a b) (hba : Precedes keys b a) : ties keys a b := by
  induction keys with
  | nil => rfl
  | cons key keys ih =>
    rw [ties_iff, List.forall_mem_cons, ← ties_iff]
    rcases hab with hlt | ⟨heq, hab⟩
    · rcases hba with hgt | ⟨heq, -⟩ <;> omega
    · rcases hba with hgt | ⟨-, hba⟩
      · omega
      · exact ⟨heq, ih hab hba⟩

/-- A rearrangement in the order of the keys that leaves members that tie as they were. -/
structure StablySorted (keys : List (α → Nat)) (sorted original : List α) : Prop where
  perm : sorted.Perm original
  ordered : sorted.Pairwise (Precedes keys)
  stable : ∀ a, sorted.filter (ties keys a) = original.filter (ties keys a)

/-- An ordered list is known from the members that tie, class by class. -/
theorem eq_of_ordered {l₁ l₂ : List α} (h₁ : l₁.Pairwise (Precedes keys))
    (h₂ : l₂.Pairwise (Precedes keys))
    (hties : ∀ a, l₁.filter (ties keys a) = l₂.filter (ties keys a)) : l₁ = l₂ := by
  induction l₁ generalizing l₂ with
  | nil =>
    cases l₂ with
    | nil => rfl
    | cons b u =>
      have hb := hties b
      rw [List.filter_nil, List.filter_cons_of_pos (ties_self keys b)] at hb
      cases hb
  | cons a t ih =>
    cases l₂ with
    | nil =>
      have ha := hties a
      rw [List.filter_nil, List.filter_cons_of_pos (ties_self keys a)] at ha
      cases ha
    | cons b u =>
      obtain ⟨hat, ht⟩ := List.pairwise_cons.1 h₁
      obtain ⟨hbu, hu⟩ := List.pairwise_cons.1 h₂
      have hmem : ∀ c, c ∈ a :: t ↔ c ∈ b :: u := by
        intro c
        have hc := congrArg (c ∈ ·) (hties c)
        simpa only [List.mem_filter, ties_self, and_true, eq_iff_iff] using hc
      -- Each head precedes the other one, so they tie, and then they head the same class.
      obtain rfl : a = b := by
        by_contra hne
        have ha : a ∈ u := (List.mem_cons.1 ((hmem a).1 List.mem_cons_self)).resolve_left hne
        have hb : b ∈ t :=
          (List.mem_cons.1 ((hmem b).2 List.mem_cons_self)).resolve_left (Ne.symm hne)
        have hhead := hties a
        rw [List.filter_cons_of_pos (ties_self keys a),
          List.filter_cons_of_pos ((hat b hb).ties (hbu a ha))] at hhead
        exact hne (List.cons.inj hhead).1
      have htail : ∀ c, t.filter (ties keys c) = u.filter (ties keys c) := by
        intro c
        have hc := hties c
        rw [List.filter_cons, List.filter_cons] at hc
        split at hc
        · exact (List.cons.inj hc).2
        · exact hc
      rw [ih ht hu htail]

namespace StablySorted

variable {sorted other original middle : List α}

theorem unique (h : StablySorted keys sorted original) (h' : StablySorted keys other original) :
    sorted = other :=
  eq_of_ordered h.ordered h'.ordered fun a => (h.stable a).trans (h'.stable a).symm

theorem refl (l : List α) : StablySorted [] l l where
  perm := .refl _
  ordered := List.pairwise_of_forall fun _ _ => trivial
  stable _ := rfl

/-- A further sort puts its key in front of the others. -/
theorem mergeSort (h : StablySorted keys sorted original) (key : α → Nat) :
    StablySorted (key :: keys) (sorted.mergeSort fun a b => key a ≤ key b) original where
  perm := (List.mergeSort_perm _ _).trans h.perm
  ordered := by
    rw [List.pairwise_iff_forall_sublist]
    intro a b hab
    have hle : key a ≤ key b :=
      List.pairwise_iff_forall_sublist.1 (pairwise_mergeSort_key key sorted) hab
    rcases Nat.lt_or_eq_of_le hle with hlt | heq
    · exact .inl hlt
    · -- What ties under the new key was in the order of the old ones, and still is.
      have hclass := hab.filter fun c => key c = key b
      rw [filter_mergeSort fun c d hc hd =>
        (of_decide_eq_true hc).trans (of_decide_eq_true hd).symm] at hclass
      have hpair : [a, b].filter (fun c => key c = key b) = [a, b] := by simp [heq]
      rw [hpair] at hclass
      have hold := hclass.trans List.filter_sublist
      exact .inr ⟨heq, List.pairwise_iff_forall_sublist.1 h.ordered hold⟩
  stable a := by
    have hsplit : ties (key :: keys) a = fun b => decide (key a = key b) && ties keys a b := rfl
    rw [filter_mergeSort fun b c hb hc => key_eq_of_ties List.mem_cons_self hb hc, hsplit,
      ← List.filter_filter, h.stable, List.filter_filter]

/-- A sort by one of the keys makes no difference when all of them are sorted by afterwards. -/
theorem of_mergeSort (hkey : key ∈ keys)
    (h : StablySorted keys sorted (original.mergeSort fun a b => key a ≤ key b)) :
    StablySorted keys sorted original where
  perm := h.perm.trans (List.mergeSort_perm _ _)
  ordered := h.ordered
  stable a := by
    rw [h.stable, filter_mergeSort fun b c hb hc => key_eq_of_ties hkey hb hc]

end StablySorted

end CableCapture
