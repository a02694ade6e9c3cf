import CableCapture.Proofs.Answers
import CableCapture.Reader

/-!
# Framed readers

A framed reader knows by itself how many bytes belong to it. It takes the same bytes whatever follows
them, and where they end too early it fails for want of bytes. Every field is framed, and so is a
sequence of framed readers. A sealed reader also refuses whatever follows its last field.
-/

namespace CableCapture

namespace Reader

variable {α β : Type}

/-- The reader takes exactly these bytes for `a`, whatever follows them. -/
def Spells (item : Reader α) (bytes : List UInt8) (a : α) : Prop :=
  ∀ rest, item.on (bytes ++ rest) = (.ok a, rest)

/-- The reader fails because the bytes end too early. -/
def Starves (item : Reader α) (bytes : List UInt8) : Prop :=
  ∃ field needed available,
    item.decode bytes = .error (.truncatedPayload field needed available)

structure Framed (item : Reader α) : Prop where
  spells : ∀ {bytes : List UInt8} {a : α} {rest : List UInt8},
    item.on bytes = (.ok a, rest) → ∃ used, item.Spells used a ∧ bytes = used ++ rest
  starves : ∀ {front more : List UInt8} {a : α},
    item.Spells (front ++ more) a → more ≠ [] → item.Starves front

/-- A reader of a whole byte string. -/
structure Sealed (item : Reader α) : Prop where
  starves : ∀ {front more : List UInt8} {a : α},
    item.decode (front ++ more) = .ok a → more ≠ [] → item.Starves front
  trailing : ∀ {bytes more : List UInt8} {a : α},
    item.decode bytes = .ok a → more ≠ [] →
      ∃ context, item.decode (bytes ++ more) =
        .error (.lengthMismatch (.trailing more.length context))

/-! ## Single steps -/

theorem Spells.on_self {item : Reader α} {bytes : List UInt8} {a : α}
    (h : item.Spells bytes a) : item.on bytes = (.ok a, []) := by
  simpa using h []

theorem spells_pure {a b : α} {bytes : List UInt8} :
    Spells (Pure.pure a) bytes b ↔ bytes = [] ∧ a = b := by
  constructor
  · intro h
    have hself := h.on_self
    simp only [on_pure, Prod.mk.injEq, Except.ok.injEq] at hself
    exact hself.symm
  · rintro ⟨rfl, rfl⟩ rest
    rfl

theorem Framed.pure (a : α) : Framed (Pure.pure a) where
  spells := by
    intro bytes b rest h
    simp only [on_pure, Prod.mk.injEq, Except.ok.injEq] at h
    exact ⟨[], spells_pure.2 ⟨rfl, h.1⟩, h.2⟩
  starves := by
    intro front more b h hmore
    exact absurd (List.append_eq_nil_iff.1 (spells_pure.1 h).1).2 hmore

theorem not_spells_throw {fault : Fault} {a : α} {bytes : List UInt8} :
    ¬ Spells (MonadExcept.throw fault) bytes a := by
  intro h
  simpa using h.on_self

theorem Framed.throw (fault : Fault) : Framed (MonadExcept.throw fault : Reader α) where
  spells := by
    intro bytes a rest h
    simp at h
  starves := fun h => absurd h not_spells_throw

theorem spells_check {answer : Except Fault α} {a : α} {bytes : List UInt8} :
    (check answer).Spells bytes a ↔ bytes = [] ∧ answer = .ok a := by
  constructor
  · intro h
    have hself := h.on_self
    simp only [on_check, Prod.mk.injEq] at hself
    exact hself.symm
  · rintro ⟨rfl, rfl⟩ rest
    rfl

theorem Framed.check (answer : Except Fault α) : (check answer).Framed where
  spells := by
    intro bytes a rest h
    simp only [on_check, Prod.mk.injEq] at h
    exact ⟨[], spells_check.2 ⟨rfl, h.1⟩, h.2⟩
  starves := by
    intro front more a h hmore
    exact absurd (List.append_eq_nil_iff.1 (spells_check.1 h).1).2 hmore

theorem on_take_append {field : String} {n : Nat} {front : List UInt8} (h : front.length = n)
    (rest : List UInt8) : (take field n).on (front ++ rest) = (.ok front, rest) := by
  subst h
  rw [on_take, if_pos (by simp), List.take_left, List.drop_left]

theorem spells_take {field : String} {n : Nat} {bytes front : List UInt8} :
    (take field n).Spells bytes front ↔ bytes = front ∧ front.length = n := by
  constructor
  · intro h
    have hself := h.on_self
    rw [on_take] at hself
    split at hself
    · simp only [Prod.mk.injEq, Except.ok.injEq, List.drop_eq_nil_iff] at hself
      have hlen : bytes.length = n := by omega
      have hfront : bytes = front := by rw [← hself.1, ← hlen, List.take_length]
      exact ⟨hfront, hfront ▸ hlen⟩
    · simp at hself
  · rintro ⟨rfl, hlen⟩ rest
    exact on_take_append hlen rest

theorem Framed.take (field : String) (n : Nat) : (take field n).Framed where
  spells := by
    intro bytes a rest h
    rw [on_take] at h
    split at h
    · simp only [Prod.mk.injEq, Except.ok.injEq] at h
      refine ⟨bytes.take n, spells_take.2 ⟨h.1, ?_⟩, ?_⟩
      · rw [← h.1, List.length_take]
        omega
      · rw [← h.2, List.take_append_drop]
    · simp at h
  starves := by
    intro front more a h hmore
    obtain ⟨hbytes, hlen⟩ := spells_take.1 h
    rw [← hbytes, List.length_append] at hlen
    have hpos := List.length_pos_iff.2 hmore
    refine ⟨field, n, front.length, ?_⟩
    rw [decode, on_take, if_neg (by omega)]

/-! ## Sequences -/

section Sequence

variable {first : Reader α} {next : α → Reader β} {bytes : List UInt8}

theorem decode_bind (first : Reader α) (next : α → Reader β) (bytes : List UInt8) :
    (first >>= next).decode bytes =
      match first.on bytes with
      | (.ok a, rest) => (next a).decode rest
      | (.error fault, _) => .error fault := by
  simp only [decode, on_bind]
  cases first.on bytes with
  | mk answer rest => cases answer <;> rfl

theorem Spells.decode_bind {a : α} (h : first.Spells bytes a) (rest : List UInt8) :
    (first >>= next).decode (bytes ++ rest) = (next a).decode rest := by
  rw [Reader.decode_bind, h]

theorem Spells.bind {a : α} {b : β} {more : List UInt8}
    (hfirst : first.Spells bytes a) (hnext : (next a).Spells more b) :
    (first >>= next).Spells (bytes ++ more) b := by
  intro rest
  rw [on_bind, List.append_assoc, hfirst]
  exact hnext rest

theorem Starves.bind (h : first.Starves bytes) : (first >>= next).Starves bytes := by
  obtain ⟨field, needed, available, h⟩ := h
  refine ⟨field, needed, available, ?_⟩
  rw [decode_bind]
  rw [decode] at h
  cases hon : first.on bytes with
  | mk answer rest =>
    rw [hon] at h
    subst h
    rfl

theorem Spells.starves_bind {a : α} {rest : List UInt8} (hfirst : first.Spells bytes a)
    (hnext : (next a).Starves rest) : (first >>= next).Starves (bytes ++ rest) := by
  obtain ⟨field, needed, available, hnext⟩ := hnext
  exact ⟨field, needed, available, (hfirst.decode_bind rest).trans hnext⟩

/-- Where bytes of a first reader and those of a next one are cut, either the first one is cut or
the cut lies behind it. -/
theorem Framed.starves_of_cut (hfirst : first.Framed) {a : α} {front more used rest : List UInt8}
    (hused : first.Spells used a) (hcut : front ++ more = used ++ rest)
    (hrest : ∀ {middle}, rest = middle ++ more → (next a).Starves middle) :
    (first >>= next).Starves front := by
  rcases List.append_eq_append_iff.1 hcut with ⟨middle, rfl, hmore⟩ | ⟨middle, rfl, hmiddle⟩
  · by_cases hm : middle = []
    · subst hm
      have hstarves := hused.starves_bind (@hrest [] (by simpa using hmore.symm))
      simpa using hstarves
    · exact (hfirst.starves hused hm).bind
  · exact hused.starves_bind (hrest hmiddle)

theorem Framed.spells_bind (hfirst : first.Framed) {b : β} :
    (first >>= next).Spells bytes b ↔
      ∃ a used, first.Spells used a ∧ ∃ more, bytes = used ++ more ∧ (next a).Spells more b := by
  constructor
  · intro h
    have hself := h.on_self
    rw [on_bind] at hself
    split at hself
    · rename_i a more ha
      obtain ⟨used, hused, rfl⟩ := hfirst.spells ha
      refine ⟨a, used, hused, more, rfl, fun rest => ?_⟩
      have hrest := h rest
      rwa [on_bind, List.append_assoc, hused] at hrest
    · simp at hself
  · rintro ⟨a, used, hused, more, rfl, hmore⟩
    exact hused.bind hmore

theorem Framed.bind (hfirst : first.Framed) (hnext : ∀ a, (next a).Framed) :
    (first >>= next).Framed where
  spells := by
    intro bytes b rest h
    rw [on_bind] at h
    split at h
    · rename_i a middle ha
      obtain ⟨used, hused, rfl⟩ := hfirst.spells ha
      obtain ⟨more, hmore, rfl⟩ := (hnext a).spells h
      exact ⟨used ++ more, hused.bind hmore, by rw [List.append_assoc]⟩
    · simp at h
  starves := by
    intro front more b h hmore
    obtain ⟨a, used, hused, rest, hcut, hrest⟩ := hfirst.spells_bind.1 h
    apply hfirst.starves_of_cut hused hcut
    rintro middle rfl
    exact (hnext a).starves hrest hmore

theorem Framed.decode_bind_eq_ok (hfirst : first.Framed) {b : β} :
    (first >>= next).decode bytes = .ok b ↔
      ∃ a used, first.Spells used a ∧
        ∃ more, bytes = used ++ more ∧ (next a).decode more = .ok b := by
  constructor
  · intro h
    rw [decode_bind] at h
    split at h
    · rename_i a more ha
      obtain ⟨used, hused, rfl⟩ := hfirst.spells ha
      exact ⟨a, used, hused, more, rfl, h⟩
    · simp at h
  · rintro ⟨a, used, hused, more, rfl, hmore⟩
    rw [hused.decode_bind, hmore]

theorem Sealed.bind (hfirst : first.Framed) (hnext : ∀ a, (next a).Sealed) :
    (first >>= next).Sealed where
  starves := by
    intro front more b h hmore
    obtain ⟨a, used, hused, rest, hcut, hrest⟩ := hfirst.decode_bind_eq_ok.1 h
    apply hfirst.starves_of_cut hused hcut
    rintro middle rfl
    exact (hnext a).starves hrest hmore
  trailing := by
    intro bytes more b h hmore
    obtain ⟨a, used, hused, rest, rfl, hrest⟩ := hfirst.decode_bind_eq_ok.1 h
    rw [List.append_assoc, hused.decode_bind]
    exact (hnext a).trailing hrest hmore

end Sequence

theorem decode_map (f : α → β) (item : Reader α) (bytes : List UInt8) :
    (f <$> item).decode bytes = (item.decode bytes).map f := by
  rw [map_eq_pure_bind, decode_bind, decode]
  cases item.on bytes with
  | mk answer rest => cases answer <;> rfl

theorem Sealed.map {item : Reader α} (f : α → β) (h : item.Sealed) : (f <$> item).Sealed where
  starves := by
    intro front more b hb hmore
    rw [decode_map] at hb
    obtain ⟨a, ha, rfl⟩ := map_eq_ok.1 hb
    obtain ⟨field, needed, available, hstarves⟩ := h.starves ha hmore
    exact ⟨field, needed, available, by rw [decode_map, hstarves]; rfl⟩
  trailing := by
    intro bytes more b hb hmore
    rw [decode_map] at hb
    obtain ⟨a, ha, rfl⟩ := map_eq_ok.1 hb
    obtain ⟨context, htrailing⟩ := h.trailing ha hmore
    exact ⟨context, by rw [decode_map, htrailing]; rfl⟩

theorem Sealed.throw (fault : Fault) : Sealed (MonadExcept.throw fault : Reader α) where
  starves := by
    intro front more a h
    simp [decode] at h
  trailing := by
    intro bytes more a h
    simp [decode] at h

theorem on_finish (context : String) (bytes : List UInt8) :
    (finish context).on bytes =
      if bytes = [] then (.ok (), [])
      else (.error (.lengthMismatch (.trailing bytes.length context)), bytes) := by
  have hon : (finish context).on bytes =
      Reader.on (if bytes = [] then Pure.pure ()
        else MonadExcept.throw (.lengthMismatch (.trailing bytes.length context))) bytes := rfl
  rw [hon]
  by_cases h : bytes = []
  · rw [if_pos h, if_pos h, h]
    rfl
  · rw [if_neg h, if_neg h]
    rfl

theorem decode_finish_bind_eq_ok {context : String} {next : Unit → Reader β} {bytes : List UInt8}
    {b : β} :
    (finish context >>= next).decode bytes = .ok b ↔ bytes = [] ∧ (next ()).decode [] = .ok b := by
  rw [decode_bind, on_finish]
  by_cases h : bytes = []
  · simp [h]
  · simp [h]

/-- What comes after the end of the bytes takes none of them. -/
theorem Sealed.finish (context : String) (next : Unit → Reader β) :
    (finish context >>= next).Sealed where
  starves := by
    intro front more b h hmore
    exact absurd (List.append_eq_nil_iff.1 (decode_finish_bind_eq_ok.1 h).1).2 hmore
  trailing := by
    intro bytes more b h hmore
    obtain ⟨rfl, -⟩ := decode_finish_bind_eq_ok.1 h
    refine ⟨context, ?_⟩
    rw [List.nil_append, decode_bind, on_finish, if_neg hmore]

end Reader

end CableCapture
