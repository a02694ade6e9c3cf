import CableCapture.Fault
import CableCapture.Proofs.Chunks
import CableCapture.Proofs.Text.Offsets

/-!
# Spellings of addresses

A text spells an address if what it holds between its outer blanks, less colons and hyphens, is the
address's twelve digits in either case. So letter case and separators make no difference, and the text
that an address is written as is one of its spellings. Reading by offsets in the bytes of the digits
gives the same and never cuts a character.
-/

namespace CableCapture

namespace MacAddress

variable {text other : String} {mac : MacAddress} {front middle back body cs : List Char}

-- ---------------------------------------------------------------------------
-- Digits and separators
-- ---------------------------------------------------------------------------

def IsSeparator (c : Char) : Prop := c = ':' ∨ c = '-'

/-- What is left of a text without colons and hyphens. -/
def withoutSeparators (cs : List Char) : List Char :=
  cs.filter fun c => c ≠ ':' && c ≠ '-'

/-- Pairs of digits with colons between them. -/
def colonForm (digits : List Char) : String :=
  .ofList ([':'].intercalate (chunksOf 2 digits))

theorem digitsOf_eq (text : String) :
    digitsOf text = withoutSeparators (trimBlanks text.toList) := rfl

theorem IsSeparator.not_isBlank {c : Char} (h : IsSeparator c) : isBlank c = false := by
  rcases h with rfl | rfl
  · rfl
  · rfl

theorem withoutSeparators_append (front back : List Char) :
    withoutSeparators (front ++ back) = withoutSeparators front ++ withoutSeparators back :=
  List.filter_append ..

theorem withoutSeparators_of_forall (h : ∀ c ∈ cs, IsSeparator c) : withoutSeparators cs = [] := by
  refine List.filter_eq_nil_iff.2 fun c hc => ?_
  rcases h c hc with rfl | rfl
  · decide
  · decide

/-- A character that goes with the separators is one. -/
theorem isSeparator_or_mem {c : Char} (hc : c ∈ cs) : IsSeparator c ∨ c ∈ withoutSeparators cs := by
  by_cases h : IsSeparator c
  · exact .inl h
  · refine .inr (List.mem_filter.2 ⟨hc, ?_⟩)
    simpa [IsSeparator] using h

theorem isSeparator_toLower {c : Char} : IsSeparator c.toLower ↔ IsSeparator c := by
  by_cases h : 'A' ≤ c ∧ c ≤ 'Z'
  · have hlower := toNat_toLower_of_capital h
    have hcapital := char_le_iff.1 h.1
    change 65 ≤ c.toNat at hcapital
    have hnot : ∀ d : Char, 65 ≤ d.toNat → ¬IsSeparator d := by
      rintro d hd (rfl | rfl)
      · exact absurd hd (by decide)
      · exact absurd hd (by decide)
    exact iff_of_false (hnot _ (by omega)) (hnot _ hcapital)
  · rw [toLower_of_not_capital h]

theorem withoutSeparators_map_toLower (cs : List Char) :
    withoutSeparators (cs.map Char.toLower) = (withoutSeparators cs).map Char.toLower := by
  unfold withoutSeparators
  rw [List.filter_map]
  congr 2
  funext c
  have hsame := isSeparator_toLower (c := c)
  unfold IsSeparator at hsame
  rw [Function.comp_apply, Bool.eq_iff_iff]
  simpa [not_or] using not_congr hsame

theorem map_toLower_digitsOf (text : String) : (digitsOf text).map Char.toLower =
    withoutSeparators (trimBlanks (text.toList.map Char.toLower)) := by
  rw [trimBlanks_map_toLower, withoutSeparators_map_toLower]
  rfl

-- ---------------------------------------------------------------------------
-- Reading
-- ---------------------------------------------------------------------------

theorem ofText_eq_ok : ofText text = .ok mac ↔ ofText? text = some mac := by
  unfold ofText
  cases ofText? text <;> simp

theorem ofText_eq_error :
    ofText text = .error (.invalidMac text) ↔ ¬∃ mac, ofText? text = some mac := by
  unfold ofText
  cases ofText? text <;> simp

theorem toOption_ofText (text : String) : (ofText text).toOption = ofText? text := by
  unfold ofText
  cases ofText? text <;> rfl

theorem ofOctets?_eq_some {octets : List UInt8} :
    ofOctets? octets = some mac ↔ octets = mac.octets := by
  constructor
  · intro h
    unfold ofOctets? at h
    split at h
    · rw [← Option.some.inj h]
    · cases h
  · rintro rfl
    exact ofOctets?_octets mac

theorem ofText?_eq_some : ofText? text = some mac ↔
    (digitsOf text).map Char.toLower = mac.octets.flatMap Hex.ofByte := by
  rw [← Hex.toBytes?_eq_some, ofText?, Option.bind_eq_some_iff]
  constructor
  · rintro ⟨octets, hdigits, hoctets⟩
    rw [hdigits, ofOctets?_eq_some.1 hoctets]
  · intro hdigits
    exact ⟨mac.octets, hdigits, ofOctets?_octets mac⟩

/-- Only the digits in lower case matter. -/
theorem ofText?_congr (h : (digitsOf text).map Char.toLower = (digitsOf other).map Char.toLower) :
    ofText? text = ofText? other := by
  apply Option.ext
  intro mac
  rw [ofText?_eq_some, ofText?_eq_some, h]

theorem exists_ofText?_iff : (∃ mac, ofText? text = some mac) ↔
    (digitsOf text).length = 12 ∧ ∀ c ∈ digitsOf text, Hex.IsDigit c := by
  constructor
  · rintro ⟨mac, hmac⟩
    have hbytes := Hex.toBytes?_eq_some.2 (ofText?_eq_some.1 hmac)
    refine ⟨?_, (Hex.isSome_toBytes?.1 (Option.isSome_of_mem hbytes)).2⟩
    rw [Hex.length_of_toBytes? hbytes, mac.length_octets]
  · rintro ⟨hlength, hdigits⟩
    obtain ⟨octets, hoctets⟩ := Option.isSome_iff_exists.1
      (Hex.isSome_toBytes?.2 ⟨by rw [hlength], hdigits⟩)
    have hsix : octets.length = 6 := by
      have := Hex.length_of_toBytes? hoctets
      omega
    exact ⟨⟨octets, hsix⟩, ofText?_eq_some.2 (Hex.toBytes?_eq_some.1 hoctets)⟩

/-- A text of digits and separators has no blank at all. -/
theorem trimmed_of_digits (h : ∀ c ∈ withoutSeparators cs, Hex.IsDigit c) : Trimmed cs := by
  refine .of_forall fun c hc => ?_
  rcases isSeparator_or_mem hc with hseparator | hdigit
  · exact hseparator.not_isBlank
  · exact (h c hdigit).not_isBlank

theorem digitsOf_ofList (h : Trimmed body) (hfront : ∀ c ∈ front, isBlank c = true)
    (hback : ∀ c ∈ back, isBlank c = true) :
    digitsOf (.ofList (front ++ body ++ back)) = withoutSeparators body := by
  rw [digitsOf_eq, String.toList_ofList, h.trimBlanks_append hfront hback]

/-- Whatever has the digits of an address between its separators spells the address. -/
theorem ofText?_of_same_digits (h : ofText? text = some mac)
    (hdigits : (withoutSeparators body).map Char.toLower = (digitsOf text).map Char.toLower)
    (hfront : ∀ c ∈ front, isBlank c = true) (hback : ∀ c ∈ back, isBlank c = true) :
    ofText? (.ofList (front ++ body ++ back)) = some mac := by
  have hall : ∀ c ∈ withoutSeparators body, Hex.IsDigit c := by
    intro c hc
    have hlower := List.mem_map_of_mem (f := Char.toLower) hc
    rw [hdigits, List.mem_map] at hlower
    obtain ⟨d, hd, hsame⟩ := hlower
    rw [← Hex.isDigit_toLower, ← hsame, Hex.isDigit_toLower]
    exact (exists_ofText?_iff.1 ⟨mac, h⟩).2 d hd
  rw [← h]
  apply ofText?_congr
  rw [digitsOf_ofList (trimmed_of_digits hall) hfront hback, hdigits]

theorem ofText?_insert_separators (h : trimBlanks text.toList = front ++ back)
    (hmiddle : ∀ c ∈ middle, IsSeparator c) :
    ofText? (.ofList (front ++ middle ++ back)) = ofText? text := by
  have htrimmed : Trimmed (front ++ middle ++ back) :=
    (h ▸ trimmed_trimBlanks text.toList).insert fun c hc => (hmiddle c hc).not_isBlank
  apply ofText?_congr
  have hsame : digitsOf (.ofList (front ++ middle ++ back)) = digitsOf text := by
    rw [digitsOf_eq, digitsOf_eq, String.toList_ofList, htrimmed.trimBlanks_eq, h,
      withoutSeparators_append, withoutSeparators_append, withoutSeparators_of_forall hmiddle,
      List.append_nil, withoutSeparators_append]
  rw [hsame]

theorem ofText?_change_case (h : text.toList.map Char.toLower = other.toList.map Char.toLower) :
    ofText? text = ofText? other := by
  apply ofText?_congr
  rw [map_toLower_digitsOf, map_toLower_digitsOf, h]

-- ---------------------------------------------------------------------------
-- Writing
-- ---------------------------------------------------------------------------

theorem isDigit_of_mem_flatMap_ofByte {bytes : List UInt8} {c : Char}
    (hc : c ∈ bytes.flatMap Hex.ofByte) : Hex.IsDigit c :=
  (Hex.isSome_toBytes?.1 (Option.isSome_of_mem (Hex.toBytes?_flatMap_ofByte bytes))).2 c hc

theorem withoutSeparators_of_digits (h : ∀ c ∈ cs, Hex.IsDigit c) : withoutSeparators cs = cs := by
  refine List.filter_eq_self.2 fun c hc => ?_
  have hdigit := h c hc
  have hcolon : c ≠ ':' := by
    rintro rfl
    exact absurd hdigit (by decide)
  have hhyphen : c ≠ '-' := by
    rintro rfl
    exact absurd hdigit (by decide)
  simp [hcolon, hhyphen]

theorem withoutSeparators_intercalate (bytes : List UInt8) :
    withoutSeparators ([':'].intercalate (bytes.map Hex.ofByte)) = bytes.flatMap Hex.ofByte := by
  have hpair : ∀ b, withoutSeparators (Hex.ofByte b) = Hex.ofByte b := by
    intro b
    refine withoutSeparators_of_digits fun c hc => ?_
    exact isDigit_of_mem_flatMap_ofByte (List.mem_flatMap.2 ⟨b, List.mem_singleton_self b, hc⟩)
  have hcolon : withoutSeparators [':'] = [] := rfl
  induction bytes with
  | nil => rfl
  | cons b rest ih =>
    cases rest with
    | nil => simpa using hpair b
    | cons next rest =>
      rw [List.map_cons, List.map_cons, List.intercalate_cons_cons, withoutSeparators_append,
        withoutSeparators_append, hpair, hcolon, List.append_nil, ← List.map_cons, ih]
      rfl

theorem digitsOf_display (mac : MacAddress) :
    digitsOf mac.display = mac.octets.flatMap Hex.ofByte := by
  have hdigits := withoutSeparators_intercalate mac.octets
  have htrimmed : Trimmed ([':'].intercalate (mac.octets.map Hex.ofByte)) := by
    apply trimmed_of_digits
    rw [hdigits]
    exact fun c => isDigit_of_mem_flatMap_ofByte
  rw [digitsOf_eq, display, String.toList_ofList, htrimmed.trimBlanks_eq, hdigits]

theorem ofText?_display (mac : MacAddress) : ofText? mac.display = some mac := by
  rw [ofText?_eq_some, digitsOf_display]
  exact Hex.toBytes?_eq_some.1 (Hex.toBytes?_flatMap_ofByte mac.octets)

theorem display_injective : Function.Injective display := by
  intro a b h
  have ha := ofText?_display a
  rw [h, ofText?_display b] at ha
  exact (Option.some.inj ha).symm

theorem display_eq_colonForm (mac : MacAddress) :
    mac.display = colonForm (mac.octets.flatMap Hex.ofByte) := by
  have hpair : ∀ b, (Hex.ofByte b).length = 2 := fun _ => rfl
  rw [display, colonForm, chunksOf_flatMap (by decide) hpair]

-- ---------------------------------------------------------------------------
-- Reading by offsets
-- ---------------------------------------------------------------------------

/-- The octets of an address, each from the two bytes of the digits where it stands. The digits are
checked first, their number in bytes. Nothing at all if a character would be cut. -/
def octetsByOffset (text : String) : Option (Except Fault (List UInt8)) :=
  let digits := digitsOf text
  if (Utf8.encode digits).length = 12 ∧ digits.all fun c => Hex.IsDigit c then
    ExceptT.run <| (List.range 6).mapM fun i => do
      let pair ← (Utf8.slice? digits (2 * i) (2 * i + 2) : ExceptT Fault Option (List Char))
      match Hex.byteOf? pair with
      | some octet => return octet
      | none => throw (.invalidMac text)
  else some (.error (.invalidMac text))

/-- Steps that each give the item at their place give the whole list. -/
theorem mapM_range_eq_pure {m : Type → Type} [Monad m] [LawfulMonad m] {α : Type} {l : List α}
    {f : ℕ → m α} (h : ∀ i (hi : i < l.length), f i = pure l[i]) :
    (List.range l.length).mapM f = pure l := by
  induction l generalizing f with
  | nil => rfl
  | cons a rest ih =>
    have hrest : (List.range rest.length).mapM (f ∘ Nat.succ) = pure rest :=
      ih fun i hi => h (i + 1) (Nat.succ_lt_succ hi)
    rw [List.length_cons, List.range_succ_eq_map, List.mapM_cons, h 0 (Nat.succ_pos _), pure_bind,
      List.mapM_map, hrest, pure_bind]
    rfl

theorem octetsByOffset_eq (text : String) :
    octetsByOffset text = some ((ofText text).map octets) := by
  have hcount : ∀ {cs}, (∀ c ∈ cs, Hex.IsDigit c) → (Utf8.encode cs).length = cs.length :=
    fun h => Utf8.length_encode_of_ascii fun c hc => (h c hc).toNat_lt
  have hall : ((digitsOf text).all fun c => Hex.IsDigit c) ↔ ∀ c ∈ digitsOf text, Hex.IsDigit c := by
    simp only [List.all_eq_true, decide_eq_true_eq]
  unfold octetsByOffset
  by_cases h : ∃ mac, ofText? text = some mac
  · obtain ⟨hlength, hdigits⟩ := exists_ofText?_iff.1 h
    obtain ⟨mac, hmac⟩ := h
    have hbytes := Hex.toBytes?_eq_some.2 (ofText?_eq_some.1 hmac)
    have hsix := mac.length_octets
    rw [if_pos ⟨(hcount hdigits).trans hlength, hall.2 hdigits⟩, ofText_eq_ok.2 hmac, ← hsix]
    -- All characters are digits by now, so every offset is the end of one.
    refine mapM_range_eq_pure (m := ExceptT Fault Option) fun i hi => ?_
    rw [Utf8.slice?_of_ascii (fun c hc => (hdigits c hc).toNat_lt) (by omega)]
    change (match Hex.byteOf? _ with | some octet => _ | none => _) = _
    rw [Hex.byteOf?_slice hbytes hi]
  · rw [if_neg, ofText_eq_error.2 h]
    · rfl
    · rintro ⟨hlength, hdigits⟩
      have hdigits := hall.1 hdigits
      exact h (exists_ofText?_iff.2 ⟨(hcount hdigits).symm.trans hlength, hdigits⟩)

-- ---------------------------------------------------------------------------
-- Main result
-- ---------------------------------------------------------------------------

/-- What reading makes of a text. -/
structure Reading (text : String) : Prop where
  /-- The digits of the text are those of the address, pair by pair and in either case. -/
  ok_iff : ∀ mac, ofText text = .ok mac ↔
    (digitsOf text).map Char.toLower = mac.octets.flatMap Hex.ofByte
  /-- Twelve digits spell an address, and nothing else does. -/
  accepted_iff : (∃ mac, ofText text = .ok mac) ↔
    (digitsOf text).length = 12 ∧ ∀ c ∈ digitsOf text, Hex.IsDigit c
  /-- A text that spells none is named by the fault. -/
  refused : (¬∃ mac, ofText text = .ok mac) → ofText text = .error (.invalidMac text)
  /-- Reading by offsets comes to the same without cutting a character. -/
  by_offset : octetsByOffset text = some ((ofText text).map octets)
  /-- The address is written as the pairs of digits in lower case with colons between them. -/
  display : ∀ mac, ofText text = .ok mac →
    mac.display = colonForm ((digitsOf text).map Char.toLower)
  /-- Any other text with the same digits in either case, between any separators and outer blanks,
  spells the same address. -/
  respelled : ∀ mac front body back, ofText text = .ok mac →
    (withoutSeparators body).map Char.toLower = (digitsOf text).map Char.toLower →
    (∀ c ∈ front, isBlank c = true) → (∀ c ∈ back, isBlank c = true) →
    ofText (.ofList (front ++ body ++ back)) = .ok mac
  /-- Separators may be put anywhere between the outer blanks, whether the text is accepted or not.
  This is also about taking them away: the text that is left is the one that is read here. -/
  separated : ∀ front middle back, trimBlanks text.toList = front ++ back →
    (∀ c ∈ middle, IsSeparator c) →
    (ofText (.ofList (front ++ middle ++ back))).toOption = (ofText text).toOption
  /-- So may letters of either case be put for each other. -/
  recased : ∀ other : String, text.toList.map Char.toLower = other.toList.map Char.toLower →
    (ofText text).toOption = (ofText other).toOption

/-- Every text is read as its digits say, and every address is read back from what it is written as,
so no two addresses are written alike. -/
theorem text_of_address :
    (∀ text, Reading text) ∧ (∀ mac : MacAddress, ofText mac.display = .ok mac) ∧
      Function.Injective display := by
  refine ⟨fun text => ?_, fun mac => ofText_eq_ok.2 (ofText?_display mac), display_injective⟩
  exact {
    ok_iff := fun mac => ofText_eq_ok.trans ofText?_eq_some
    accepted_iff := by
      simp only [ofText_eq_ok]
      exact exists_ofText?_iff
    refused := by
      simp only [ofText_eq_ok]
      exact ofText_eq_error.2
    by_offset := octetsByOffset_eq text
    display := fun mac h => by
      rw [display_eq_colonForm, ← ofText?_eq_some.1 (ofText_eq_ok.1 h)]
    respelled := fun mac front body back h hdigits hfront hback =>
      ofText_eq_ok.2 (ofText?_of_same_digits (ofText_eq_ok.1 h) hdigits hfront hback)
    separated := fun front middle back h hmiddle => by
      rw [toOption_ofText, toOption_ofText, ofText?_insert_separators h hmiddle]
    recased := fun other h => by
      rw [toOption_ofText, toOption_ofText, ofText?_change_case h] }

end MacAddress

end CableCapture
