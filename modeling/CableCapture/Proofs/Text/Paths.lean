import CableCapture.Text.Path
import Mathlib.Data.List.TakeWhile

/-!
# Names in paths

A path with one more name leads to what the name stands for. What follows the last dot of a name is
its suffix, unless nothing stands before the dot.
-/

namespace CableCapture.Path

/-! ## Pieces -/

theorem split_ne_nil (cs : List Char) : split cs ≠ [] := by
  cases cs with
  | nil => exact List.cons_ne_nil _ _
  | cons c rest =>
    unfold split
    split
    · exact List.cons_ne_nil _ _
    · split <;> exact List.cons_ne_nil _ _

theorem split_append (cs ds : List Char) : split (cs ++ '/' :: ds) = split cs ++ split ds := by
  induction cs with
  | nil => simp [split]
  | cons c rest ih =>
    rw [List.cons_append, split, split, ih]
    by_cases hc : c = '/'
    · rw [if_pos hc, if_pos hc, List.cons_append]
    · obtain ⟨piece, pieces, hpieces⟩ := List.exists_cons_of_ne_nil (split_ne_nil rest)
      rw [if_neg hc, if_neg hc, hpieces]
      rfl

theorem split_of_no_slash {cs : List Char} (h : '/' ∉ cs) : split cs = [cs] := by
  induction cs with
  | nil => rfl
  | cons c rest ih =>
    rw [List.mem_cons, not_or] at h
    rw [split, if_neg (Ne.symm h.1), ih h.2]

/-! ## Names -/

/-- What a file or a folder may be called. -/
structure IsName (name : String) : Prop where
  /-- A name is not empty and does not mean the folder itself or the one above it. -/
  proper : name ∉ ["", ".", ".."]
  no_slash : '/' ∉ name.toList
  no_null : '\x00' ∉ name.toList

instance (name : String) : Decidable (IsName name) :=
  decidable_of_iff (name ∉ ["", ".", ".."] ∧ '/' ∉ name.toList ∧ '\x00' ∉ name.toList)
    ⟨fun ⟨hproper, hslash, hnull⟩ => ⟨hproper, hslash, hnull⟩,
      fun h => ⟨h.proper, h.no_slash, h.no_null⟩⟩

section IsName

variable {name : String} (h : IsName name)
include h

theorem IsName.toList_ne {cs : List Char} (hcs : cs ∈ [[], ['.'], ['.', '.']]) :
    name.toList ≠ cs := by
  intro heq
  apply h.proper
  rw [← String.ofList_toList (s := name), heq]
  exact List.mem_map_of_mem hcs

theorem IsName.fileName?_of_split {path : String} (pieces : List (List Char))
    (hsplit : split path.toList = pieces ++ [name.toList]) : fileName? path = some name := by
  have hempty : name.toList ≠ [] := h.toList_ne (by decide)
  have hdot : name.toList ≠ ['.'] := h.toList_ne (by decide)
  have hnames : (names path).getLast? = some name := by
    unfold names
    rw [hsplit, List.filter_append, List.filter_cons_of_pos (by simp [hempty, hdot]),
      List.filter_nil, List.map_append, List.map_cons, List.map_nil, List.getLast?_concat,
      String.ofList_toList]
  have hparent : name ≠ ".." := fun heq => h.proper (by simp [heq])
  unfold fileName?
  rw [hnames]
  split
  · rename_i heq
    exact absurd (Option.some.inj heq) hparent
  · rfl

theorem IsName.fileName?_eq : fileName? name = some name :=
  h.fileName?_of_split [] (split_of_no_slash h.no_slash)

theorem IsName.fileName?_append (path : String) : fileName? (path ++ "/" ++ name) = some name := by
  refine h.fileName?_of_split (split path.toList) ?_
  rw [String.toList_append, String.toList_append, List.append_assoc,
    ← split_of_no_slash h.no_slash]
  exact split_append _ _

end IsName

/-! ## Suffixes -/

theorem takeWhile_append_dot {cs rest : List Char} (h : '.' ∉ cs) :
    (cs ++ '.' :: rest).takeWhile (· ≠ '.') = cs := by
  have hall : ∀ c ∈ cs, decide (c ≠ '.') = true := fun c hc =>
    decide_eq_true fun heq => h (heq ▸ hc)
  rw [List.takeWhile_append_of_pos hall, List.takeWhile_cons_of_neg (by simp), List.append_nil]

theorem suffix?_of_reverse {name : String} {cs rest : List Char}
    (hname : name.toList.reverse = cs ++ '.' :: rest) (hcs : '.' ∉ cs) :
    suffix? name = if rest = [] then none else some (.ofList cs.reverse) := by
  unfold suffix?
  dsimp only
  rw [hname, takeWhile_append_dot hcs, List.drop_left]
  cases rest <;> rfl

theorem suffix?_of_no_dot {name : String} (h : '.' ∉ name.toList) : suffix? name = none := by
  have hall : name.toList.reverse.takeWhile (· ≠ '.') = name.toList.reverse :=
    List.takeWhile_eq_self_iff.2 fun c hc =>
      decide_eq_true fun heq => h (heq ▸ List.mem_reverse.1 hc)
  unfold suffix?
  dsimp only
  rw [hall, List.drop_length]

/-- The suffix stands behind the last dot, which is not the first character. -/
theorem suffix?_eq_some {name suffix : String} :
    suffix? name = some suffix ↔
      '.' ∉ suffix.toList ∧ ∃ stem ≠ [], name.toList = stem ++ '.' :: suffix.toList := by
  constructor
  · intro h
    by_cases hdot : '.' ∈ name.toList
    · obtain ⟨cs, rest, hname, hcs⟩ := List.eq_append_cons_of_mem (List.mem_reverse.2 hdot)
      rw [suffix?_of_reverse hname hcs] at h
      split at h
      · cases h
      · rename_i hrest
        rw [← Option.some.inj h, String.toList_ofList, List.mem_reverse]
        refine ⟨hcs, rest.reverse, List.reverse_ne_nil_iff.2 hrest, ?_⟩
        rw [← List.reverse_reverse name.toList, hname]
        simp
    · rw [suffix?_of_no_dot hdot] at h
      cases h
  · rintro ⟨hsuffix, stem, hstem, hname⟩
    have hreverse : name.toList.reverse = suffix.toList.reverse ++ '.' :: stem.reverse := by
      rw [hname]
      simp
    rw [suffix?_of_reverse hreverse (by rwa [List.mem_reverse]),
      if_neg (List.reverse_ne_nil_iff.2 hstem), List.reverse_reverse, String.ofList_toList]

end CableCapture.Path
