import CableCapture.Proofs.Text.Tags
import Mathlib.Data.List.Basic

/-!
# Headers in front of payloads

What bytes a header is read from. Only the tag is read with a loss, and the tags of known kinds are
not: such a header is written as the bytes that it was read from.
-/

namespace CableCapture

namespace Header

/-- The capture time where the version leaves room for it. -/
def timeBytes (h : Header) : List UInt8 :=
  match HeaderLayout.ofVersion h.version with
  | .compact => []
  | .standard => BigEndian.ofUInt32 h.captureTime

/-- The header behind the tag, and the payload. -/
def behindTag (h : Header) : List UInt8 :=
  [h.version, h.major, h.minor] ++ h.timeBytes ++ h.payload

theorem toBytes_eq (h : Header) : h.toBytes = tagBytes h.tag ++ h.behindTag := by
  change tagBytes h.tag ++ [h.version, h.major, h.minor] ++ h.timeBytes ++ h.payload = _
  unfold behindTag
  rw [List.append_assoc, List.append_assoc, List.append_assoc]

theorem length_timeBytes (h : Header) :
    6 + h.timeBytes.length = (HeaderLayout.ofVersion h.version).size := by
  unfold timeBytes
  cases HeaderLayout.ofVersion h.version <;> rfl

theorem kind_eq_ok {h : Header} {kind : CaptureKind} :
    h.kind = .ok kind ↔ CaptureKind.resolve? h.tag h.version = some kind := by
  unfold Header.kind kind?
  cases CaptureKind.resolve? h.tag h.version with
  | none => simp
  | some found => simp

theorem parse_eq_ok {bytes : List UInt8} {h : Header} :
    parse bytes = .ok h ↔
      ∃ tag, tag.length = 3 ∧ h.tag = .ofList (Utf8.decode tag) ∧
        h.layout = .ofVersion h.version ∧ (h.layout = .compact → h.captureTime = 0) ∧
        bytes = tag ++ h.behindTag := by
  constructor
  · intro hparse
    unfold parse at hparse
    split at hparse
    · rename_i t₀ t₁ t₂ version rest
      simp only at hparse
      split at hparse
      · rename_i major minor payload hlayout
        cases hparse
        refine ⟨[t₀, t₁, t₂], rfl, rfl, hlayout.symm, fun _ => rfl, ?_⟩
        simp only [behindTag, timeBytes, hlayout]
        rfl
      · rename_i major minor c₀ c₁ c₂ c₃ payload hlayout
        cases hparse
        refine ⟨[t₀, t₁, t₂], rfl, rfl, hlayout.symm, ?_, ?_⟩
        · intro hcompact
          cases hcompact
        · simp only [behindTag, timeBytes, hlayout]
          rw [BigEndian.ofUInt32_toUInt32 rfl]
          rfl
      · cases hparse
    · cases hparse
  · intro hfront
    obtain ⟨tag, hlen, htag, hlayout, htime, rfl⟩ := hfront
    obtain ⟨t₀, t₁, t₂, rfl⟩ := List.length_eq_three.1 hlen
    unfold parse behindTag timeBytes
    cases hversion : HeaderLayout.ofVersion h.version with
    | compact =>
      rw [hversion] at hlayout
      simp only [List.cons_append, List.nil_append, hversion]
      rw [← htag, ← hlayout, ← htime hlayout]
    | standard =>
      rw [hversion] at hlayout
      obtain ⟨c₀, c₁, c₂, c₃, hbytes⟩ : ∃ c₀ c₁ c₂ c₃,
          BigEndian.ofUInt32 h.captureTime = [c₀, c₁, c₂, c₃] := ⟨_, _, _, _, rfl⟩
      simp only [hbytes, List.cons_append, List.nil_append, hversion]
      rw [← hbytes, BigEndian.toUInt32_ofUInt32, ← htag, ← hlayout]

/-- The payload does not matter to the header in front of it. -/
theorem exists_front_of_parse {bytes : List UInt8} {h : Header} (hparse : parse bytes = .ok h) :
    ∃ front, bytes = front ++ h.payload ∧ front.length = h.layout.size ∧
      ∀ payload, parse (front ++ payload) = .ok { h with payload } := by
  obtain ⟨tag, hlen, htag, hlayout, htime, rfl⟩ := parse_eq_ok.1 hparse
  refine ⟨tag ++ ([h.version, h.major, h.minor] ++ h.timeBytes), ?_, ?_, ?_⟩
  · simp [behindTag]
  · rw [hlayout, ← length_timeBytes, List.length_append, List.length_append, hlen, ← Nat.add_assoc]
    rfl
  · intro payload
    exact parse_eq_ok.2 ⟨tag, hlen, htag, hlayout, htime, by simp [behindTag, timeBytes]⟩

/-- A tag that is read from three bytes has at most three characters. -/
theorem length_tag_of_parse {bytes : List UInt8} {h : Header} (hparse : parse bytes = .ok h) :
    h.tag.toList.length ≤ 3 := by
  obtain ⟨tag, hlen, htag, -⟩ := parse_eq_ok.1 hparse
  rw [htag, String.toList_ofList, ← hlen]
  exact Utf8.length_decode_le tag

theorem toBytes_of_parse {bytes : List UInt8} {h : Header} {kind : CaptureKind}
    (hparse : parse bytes = .ok h) (hkind : h.kind = .ok kind) :
    h.toBytes = bytes ∧ h.tag = "PNN" ∧ h.version = Capture.versionOf kind ∧
      h.layout = .ofVersion h.version := by
  obtain ⟨hplain, hversion, -⟩ :=
    CaptureKind.tag_of_resolve? (kind_eq_ok.1 hkind) (length_tag_of_parse hparse)
  obtain ⟨tag, hlen, htag, hlayout, -, rfl⟩ := parse_eq_ok.1 hparse
  have hbytes : tag = tagBytes h.tag := by
    rw [hplain, CaptureKind.tag_bytes_of_decode (htag.symm.trans hplain) hlen]
    decide
  refine ⟨?_, hplain, hversion, hlayout⟩
  rw [toBytes_eq, ← hbytes]

end Header

end CableCapture
