import Mathlib.Data.List.Induction
import Mathlib.Data.List.Nodup

/-!
# First occurrences

Without its repetitions a list keeps the order in which its members come up first. One more member
stands at the end, if it is new. In a sorted list repetitions are side by side.
-/

namespace CableCapture

variable {α κ : Type}

section Members

variable [DecidableEq α] {l l' : List α}

theorem eraseDups_concat (l : List α) (a : α) :
    (l ++ [a]).eraseDups = l.eraseDups ++ if a ∈ l then [] else [a] := by
  rw [List.eraseDups_append]
  by_cases h : a ∈ l
  · simp [List.removeAll, h]
  · simp [List.removeAll, h, List.eraseDups_cons]

theorem eraseDups_sublist (l : List α) : l.eraseDups.Sublist l := by
  induction l using List.reverseRecOn with
  | nil => exact List.Sublist.slnil
  | append_singleton l a ih =>
    rw [eraseDups_concat]
    split
    · exact ih.append (List.nil_sublist _)
    · exact ih.append (List.Sublist.refl _)

theorem nodup_eraseDups (l : List α) : l.eraseDups.Nodup := by
  induction l using List.reverseRecOn with
  | nil => exact List.nodup_nil
  | append_singleton l a ih =>
    rw [eraseDups_concat]
    split
    · rwa [List.append_nil]
    · rename_i hnew
      rw [← List.concat_eq_append, List.nodup_concat, List.mem_eraseDups]
      exact ⟨hnew, ih⟩

theorem perm_eraseDups (h : l.Perm l') : l.eraseDups.Perm l'.eraseDups := by
  rw [List.perm_ext_iff_of_nodup (nodup_eraseDups l) (nodup_eraseDups l')]
  intro a
  rw [List.mem_eraseDups, List.mem_eraseDups, h.mem_iff]

theorem eraseDups_of_forall_eq {a : α} (hne : l ≠ []) (h : ∀ b ∈ l, b = a) : l.eraseDups = [a] := by
  cases l with
  | nil => exact absurd rfl hne
  | cons b rest =>
    obtain ⟨rfl, hrest⟩ := List.forall_mem_cons.1 h
    have hnone : rest.filter (fun c => !c == b) = [] :=
      List.filter_eq_nil_iff.2 fun c hc => by simp [hrest c hc]
    rw [List.eraseDups_cons, hnone, List.eraseDups_nil]

end Members

/-! ## Repetitions side by side -/

section Neighbours

variable [DecidableEq α] {l : List α}

theorem eraseRepsBy_loop_eq (a : α) (l done : List α) :
    List.eraseRepsBy.loop (· == ·) a l done =
      done.reverse ++ List.eraseRepsBy.loop (· == ·) a l [] := by
  induction l generalizing a done with
  | nil => simp [List.eraseRepsBy.loop]
  | cons b rest ih =>
    unfold List.eraseRepsBy.loop
    split
    · exact ih a done
    · rw [ih, ih b [a]]
      simp

theorem eraseReps_cons_cons (a b : α) (l : List α) :
    (a :: b :: l).eraseReps = if a = b then (a :: l).eraseReps else a :: (b :: l).eraseReps := by
  unfold List.eraseReps List.eraseRepsBy
  dsimp only
  conv_lhs => unfold List.eraseRepsBy.loop
  by_cases h : a = b
  · rw [if_pos h, beq_iff_eq.2 h]
  · rw [if_neg h, beq_false_of_ne h]
    exact eraseRepsBy_loop_eq b l [a]

theorem mem_eraseReps {a : α} : a ∈ l.eraseReps ↔ a ∈ l := by
  cases l with
  | nil => rfl
  | cons b rest =>
    induction rest generalizing b with
    | nil => rfl
    | cons c rest ih =>
      rw [eraseReps_cons_cons]
      split
      · rename_i heq
        rw [ih, heq, List.mem_cons, List.mem_cons, List.mem_cons, or_self_left]
      · rw [List.mem_cons, ih, ← List.mem_cons]

/-- A sorted list becomes a strictly sorted one. -/
theorem pairwise_eraseReps {key : α → ℕ} (hkey : Function.Injective key)
    (h : l.Pairwise fun a b => key a ≤ key b) : l.eraseReps.Pairwise fun a b => key a < key b := by
  cases l with
  | nil => exact .nil
  | cons a rest =>
    induction rest generalizing a with
    | nil => exact List.pairwise_singleton _ a
    | cons b rest ih =>
      obtain ⟨hfirst, hrest⟩ := List.pairwise_cons.1 h
      rw [eraseReps_cons_cons]
      split
      · rename_i heq
        exact ih a (heq ▸ hrest)
      · rename_i hne
        have hab : key a < key b := by
          refine Nat.lt_of_le_of_ne (hfirst b List.mem_cons_self) ?_
          exact fun heq => hne (hkey heq)
        refine List.pairwise_cons.2 ⟨fun c hc => ?_, ih b hrest⟩
        rcases List.mem_cons.1 (mem_eraseReps.1 hc) with rfl | hc
        · exact hab
        · exact Nat.lt_of_lt_of_le hab ((List.pairwise_cons.1 hrest).1 c hc)

end Neighbours

/-! ## Keys of parts -/

/-- Parts that are filled with members of their own keys bring the keys up in their order. -/
theorem eraseDups_map_flatMap [DecidableEq κ] {key : α → κ} {keys : List κ} {part : κ → List α}
    (hnodup : keys.Nodup) (hfilled : ∀ k ∈ keys, part k ≠ [])
    (hkey : ∀ k ∈ keys, ∀ a ∈ part k, key a = k) :
    ((keys.flatMap part).map key).eraseDups = keys := by
  induction keys with
  | nil => rfl
  | cons k rest ih =>
    obtain ⟨hnew, hrest⟩ := List.nodup_cons.1 hnodup
    obtain ⟨hhead, hfilled⟩ := List.forall_mem_cons.1 hfilled
    obtain ⟨hown, hkey⟩ := List.forall_mem_cons.1 hkey
    have hfirst : ((part k).map key).eraseDups = [k] :=
      eraseDups_of_forall_eq (by simpa using hhead) (List.forall_mem_map.2 hown)
    have hothers : ((rest.flatMap part).map key).removeAll ((part k).map key) =
        (rest.flatMap part).map key := by
      apply List.filter_eq_self.2
      intro j hj
      obtain ⟨a, ha, rfl⟩ := List.mem_map.1 hj
      obtain ⟨l, hl, ha⟩ := List.mem_flatMap.1 ha
      have hne : ∀ b ∈ part k, key b ≠ key a := by
        intro b hb heq
        rw [hown b hb, hkey l hl a ha] at heq
        exact hnew (heq ▸ hl)
      simpa using hne
    rw [List.flatMap_cons, List.map_append, List.eraseDups_append, hfirst, hothers,
      ih hrest hfilled hkey, List.singleton_append]

end CableCapture
