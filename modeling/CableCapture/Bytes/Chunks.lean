/-!
# Pieces of a list

A list is cut from the front into pieces of one length; the last piece may be shorter.
-/

namespace CableCapture

variable {α : Type}

/-- Pieces of length `n`; there are none if `n` is zero. -/
def chunksOf (n : Nat) (xs : List α) : List (List α) :=
  if n = 0 ∨ xs.isEmpty then [] else xs.take n :: chunksOf n (xs.drop n)
termination_by xs.length
decreasing_by
  cases xs with
  | nil => simp_all
  | cons x xs =>
    simp only [List.length_drop, List.length_cons]
    omega

@[simp] theorem chunksOf_nil (n : Nat) : chunksOf n ([] : List α) = [] := by
  rw [chunksOf]
  simp

theorem chunksOf_of_pos {n : Nat} (hn : 0 < n) {xs : List α} (hxs : xs ≠ []) :
    chunksOf n xs = xs.take n :: chunksOf n (xs.drop n) := by
  rw [chunksOf, if_neg]
  simp only [List.isEmpty_iff, not_or]
  exact ⟨by omega, hxs⟩

theorem flatten_chunksOf {n : Nat} (hn : 0 < n) (xs : List α) : (chunksOf n xs).flatten = xs := by
  induction h : xs.length using Nat.strongRecOn generalizing xs with
  | ind k ih =>
    by_cases hxs : xs = []
    · simp [hxs]
    · have hlen : 0 < xs.length := List.length_pos_iff.2 hxs
      rw [chunksOf_of_pos hn hxs, List.flatten_cons,
        ih (xs.drop n).length (by rw [List.length_drop]; omega) _ rfl, List.take_append_drop]

end CableCapture
