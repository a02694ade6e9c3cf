import CableCapture.Proofs.Capture.Decoding
import CableCapture.Proofs.Capture.Header
import CableCapture.Proofs.Numeric.FixedPoint
import CableCapture.Proofs.Record.Codes

/-!
# Files recovered from captures

A capture is written as the file that it was decoded from, with the lowest code for every level. So
two files decode to one capture exactly when they differ in the codes of one level only.
-/

namespace CableCapture

namespace RxMer

/-- Where the levels start in a payload: behind the front and the length. -/
def levelStart : Nat := 18

/-- The bytes in front of so many levels. -/
def header (r : RxMer) (count : Nat) : List UInt8 :=
  r.front ++ BigEndian.ofNat 4 count

theorem length_header (r : RxMer) (count : Nat) : (r.header count).length + 0 = levelStart := by
  simp [header, front, SubcarrierLayout.toBytes, r.mac.length_octets, levelStart]

theorem front_declaredBytes (r : RxMer) (data : List UInt8) :
    r.front ++ declaredBytes data = r.header data.length ++ data := by
  unfold declaredBytes header
  rw [List.append_assoc]

theorem lowestFrom_payload (r : RxMer) (data : List UInt8) :
    lowestFrom levelStart (r.front ++ declaredBytes data) =
      r.header data.length ++ data.map lowestCode := by
  rw [front_declaredBytes, ← length_header r data.length, lowestFrom_append, lowestFrom_zero]

theorem toPayload_of_reader {payload : List UInt8} {r : RxMer}
    (h : (reader r.preamble).decode payload = .ok r) :
    r.toPayload = lowestFrom levelStart payload := by
  obtain ⟨-, data, -, hlevels, rfl⟩ := decode_reader_eq_ok.1 h
  have hcodes : r.levels.map codeOfLevel = data.map lowestCode := by
    rw [← hlevels, List.map_map]
    exact List.map_congr_left fun code _ => codeOfLevel_levelOfCode code
  change r.front ++ declaredBytes (r.levels.map codeOfLevel) = _
  rw [lowestFrom_payload, hcodes, front_declaredBytes, List.length_map]

theorem reader_of_lowestFrom {payload other : List UInt8} {r : RxMer}
    (h : (reader r.preamble).decode payload = .ok r)
    (hsame : lowestFrom levelStart other = lowestFrom levelStart payload) :
    (reader r.preamble).decode other = .ok r := by
  obtain ⟨-, data, hlen, hlevels, rfl⟩ := decode_reader_eq_ok.1 h
  rw [lowestFrom_payload, ← length_header r data.length] at hsame
  obtain ⟨codes, rfl, hcodes⟩ := exists_of_lowestFrom hsame
  rw [lowestFrom_zero] at hcodes
  have hcount : codes.length = data.length := by
    have hlength := congrArg List.length hcodes
    rwa [List.length_map, List.length_map] at hlength
  have hread (cs : List UInt8) : cs.map levelOfCode = (cs.map lowestCode).map levelOfCode := by
    rw [List.map_map]
    exact List.map_congr_left fun code _ => (levelOfCode_lowestCode code).symm
  rw [← hcount, ← front_declaredBytes]
  refine decode_reader_eq_ok.2 ⟨rfl, codes, by rwa [hcount], ?_, rfl⟩
  rw [hread, hcodes, ← hread, hlevels]

end RxMer

namespace Capture

/-- Bytes with the lowest code for every level, where a capture has levels from a position on. -/
def lowestCodes (start : Nat) (bytes : List UInt8) : Capture → List UInt8
  | rxMer _ => RxMer.lowestFrom start bytes
  | _ => bytes

theorem toPayload_of_reads {c : Capture} {payload : List UInt8} (h : c.Reads payload) :
    c.toPayload = c.lowestCodes RxMer.levelStart payload := by
  cases c with
  | symbolCapture r =>
    obtain ⟨-, data, -, hsamples, rfl⟩ := SymbolCapture.decode_reader_eq_ok.1 h
    change r.front ++ declaredBytes (r.samples.flatMap (FixedPoint.q2_13.encodeSample 2)) = _
    rw [FixedPoint.flatMap_encodeSample_two (by decide) hsamples]
    rfl
  | channelEstimate r =>
    obtain ⟨-, data, -, hsamples, rfl⟩ := ChannelEstimate.decode_reader_eq_ok.1 h
    change r.front ++ declaredBytes (r.coefficients.flatMap (FixedPoint.q2_13.encodeSample 2)) = _
    rw [FixedPoint.flatMap_encodeSample_two (by decide) hsamples]
    rfl
  | constellation r =>
    obtain ⟨-, data, -, hsamples, rfl⟩ := Constellation.decode_reader_eq_ok.1 h
    change r.front ++ declaredBytes (r.softDecisions.flatMap (FixedPoint.q2_13.encodeSample 2)) = _
    rw [FixedPoint.flatMap_encodeSample_two (by decide) hsamples]
    rfl
  | rxMer r => exact RxMer.toPayload_of_reader h
  | histogram r =>
    obtain ⟨-, -, -, rfl⟩ := Histogram.decode_reader_eq_ok.1 h
    rfl
  | preEqualization r =>
    obtain ⟨-, data, -, hsamples, rfl⟩ := PreEqualization.decode_reader_eq_ok.1 h
    change r.front ++ declaredBytes (r.taps.flatMap (FixedPoint.q1_14.encodeSample 2)) = _
    rw [FixedPoint.flatMap_encodeSample_two (by decide) hsamples]
    rfl
  | fecSummary r =>
    obtain ⟨-, -, -, -, rfl⟩ := FecSummary.decode_reader_eq_ok.1 h
    rfl
  | spectrum r =>
    obtain ⟨-, data, -, hsegments, rfl⟩ := Spectrum.decode_reader_eq_ok.1 h
    change r.front ++ declaredBytes (r.segments.flatten.flatMap fun a =>
      BigEndian.ofInt16 (Spectrum.codeOfAmplitude a)) = _
    rw [Spectrum.flatMap_codeOfAmplitude hsegments]
    rfl
  | modulationProfile r =>
    obtain ⟨-, -, -, rfl⟩ := ModulationProfiles.decode_reader_eq_ok.1 h
    rfl

theorem reads_of_lowestCodes {c : Capture} {payload other : List UInt8} (h : c.Reads payload)
    (hsame : c.lowestCodes RxMer.levelStart other = c.lowestCodes RxMer.levelStart payload) :
    c.Reads other := by
  cases c with
  | rxMer r => exact RxMer.reader_of_lowestFrom h hsame
  | _ =>
    change other = payload at hsame
    rwa [hsame]

/-- Where the levels start in a file: behind 28 bytes. -/
def levelStart : Nat := HeaderLayout.standard.size + RxMer.levelStart

/-- A file is a header, which any capture of its kind could have, and the payload. -/
theorem exists_front_of_ofBytes {bytes : List UInt8} {c : Capture} (hc : ofBytes bytes = .ok c) :
    ∃ front payload, bytes = front ++ payload ∧ c.Reads payload ∧
      c.toBytes = front ++ c.toPayload ∧
      (∀ r, c = rxMer r → front.length = HeaderLayout.standard.size) ∧
      ∀ other, c.Reads other → ofBytes (front ++ other) = .ok c := by
  obtain ⟨h, hparse, hdecode⟩ := bind_eq_ok.1 hc
  obtain ⟨hkind, hpreamble, hmem, hreads⟩ := decode_eq_ok.1 hdecode
  obtain ⟨front, hbytes, hlen, hreparse⟩ := Header.exists_front_of_parse hparse
  obtain ⟨-, htag, hversion, hlayout⟩ := Header.toBytes_of_parse hparse hkind
  refine ⟨front, h.payload, hbytes, hreads, ?_, ?_, ?_⟩
  · have hmajor : c.preamble.major = h.major := congrArg Preamble.major hpreamble
    have hminor : c.preamble.minor = h.minor := congrArg Preamble.minor hpreamble
    have htime : c.time = h.captureTime := congrArg Preamble.captureTime hpreamble
    have hheader : c.toHeader = { h with payload := c.toPayload } := by
      unfold toHeader
      simp only [hmajor, hminor, htime, ← hversion, ← hlayout, ← htag]
    unfold toBytes
    rw [hheader]
    exact (Header.toBytes_of_parse (hreparse c.toPayload) hkind).1
  · intro r hr
    have hrxMer : c.kind = .rxMer := by
      rw [hr] at hmem ⊢
      exact List.mem_singleton.1 hmem
    rw [hlen, hlayout, hversion, hrxMer]
    rfl
  · intro other hother
    exact bind_eq_ok.2 ⟨_, hreparse other, decode_eq_ok.2 ⟨hkind, hpreamble, hmem, hother⟩⟩

theorem lowestCodes_append {c : Capture} {front : List UInt8} (payload : List UInt8)
    (hlen : ∀ r, c = rxMer r → front.length = HeaderLayout.standard.size) :
    c.lowestCodes levelStart (front ++ payload) =
      front ++ c.lowestCodes RxMer.levelStart payload := by
  cases c with
  | rxMer r =>
    have hstart : levelStart = front.length + RxMer.levelStart := by rw [hlen r rfl, levelStart]
    unfold lowestCodes
    rw [hstart, RxMer.lowestFrom_append]
  | _ => rfl

theorem exists_of_lowestCodes {c : Capture} {front rest bytes : List UInt8}
    (hlen : ∀ r, c = rxMer r → front.length = HeaderLayout.standard.size)
    (h : c.lowestCodes levelStart bytes = front ++ c.lowestCodes RxMer.levelStart rest) :
    ∃ more, bytes = front ++ more ∧
      c.lowestCodes RxMer.levelStart more = c.lowestCodes RxMer.levelStart rest := by
  cases c with
  | rxMer r =>
    have hstart : levelStart = front.length + RxMer.levelStart := by rw [hlen r rfl, levelStart]
    unfold lowestCodes at h
    rw [hstart] at h
    exact RxMer.exists_of_lowestFrom h
  | _ => exact ⟨rest, h, rfl⟩

theorem toBytes_of_ofBytes {bytes : List UInt8} {c : Capture} (hc : ofBytes bytes = .ok c) :
    c.toBytes = c.lowestCodes levelStart bytes := by
  obtain ⟨front, payload, rfl, hreads, hwrite, hlen, -⟩ := exists_front_of_ofBytes hc
  rw [hwrite, toPayload_of_reads hreads, lowestCodes_append payload hlen]

theorem ofBytes_of_lowestCodes {bytes other : List UInt8} {c : Capture}
    (hc : ofBytes bytes = .ok c)
    (hsame : c.lowestCodes levelStart other = c.lowestCodes levelStart bytes) :
    ofBytes other = .ok c := by
  obtain ⟨front, payload, rfl, hreads, -, hlen, hread⟩ := exists_front_of_ofBytes hc
  rw [lowestCodes_append payload hlen] at hsame
  obtain ⟨more, rfl, hmore⟩ := exists_of_lowestCodes hlen hsame
  exact hread more (reads_of_lowestCodes hreads hmore)

theorem kind_mem_kinds {bytes : List UInt8} {c : Capture} (hc : ofBytes bytes = .ok c) :
    c.kind ∈ c.kinds := by
  obtain ⟨h, -, hdecode⟩ := bind_eq_ok.1 hc
  exact (decode_eq_ok.1 hdecode).2.2.1

theorem lowestCodes_lowestCodes (c : Capture) (start : Nat) (bytes : List UInt8) :
    c.lowestCodes start (c.lowestCodes start bytes) = c.lowestCodes start bytes := by
  cases c with
  | rxMer r => exact RxMer.lowestFrom_lowestFrom start bytes
  | _ => rfl

theorem length_lowestCodes (c : Capture) (start : Nat) (bytes : List UInt8) :
    (c.lowestCodes start bytes).length = bytes.length := by
  cases c with
  | rxMer r => exact RxMer.length_lowestFrom start bytes
  | _ => rfl

/-- Decoding loses nothing but the choice between the two highest level codes. One encoder gives
back every accepted file with the lowest code for every level, and what it writes is accepted
again. Two files decode to the same capture exactly when they agree in these codes, so they are of
one length, and where they differ a capture of modulation error ratios has a level in both. -/
theorem decoding_loses_level_codes_only {a : List UInt8} {x : Capture} (ha : ofBytes a = .ok x) :
    x.toBytes = x.lowestCodes levelStart a ∧ ofBytes x.toBytes = .ok x ∧
    ∀ b, (ofBytes b = .ok x ↔ x.lowestCodes levelStart b = x.lowestCodes levelStart a) ∧
      (ofBytes b = .ok x → a.length = b.length ∧
        ∀ i, a[i]? ≠ b[i]? → x.kind = .rxMer ∧ levelStart ≤ i ∧
          (a[i]? = some 254 ∧ b[i]? = some 255 ∨ a[i]? = some 255 ∧ b[i]? = some 254)) := by
  have hwrite := toBytes_of_ofBytes ha
  have hsame {b : List UInt8} (hb : ofBytes b = .ok x) :
      x.lowestCodes levelStart b = x.lowestCodes levelStart a :=
    (toBytes_of_ofBytes hb).symm.trans hwrite
  refine ⟨hwrite, ?_, ?_⟩
  · apply ofBytes_of_lowestCodes ha
    rw [hwrite, lowestCodes_lowestCodes]
  · intro b
    refine ⟨⟨hsame, ofBytes_of_lowestCodes ha⟩, ?_⟩
    intro hb
    refine ⟨?_, ?_⟩
    · rw [← length_lowestCodes x levelStart a, ← hsame hb, length_lowestCodes]
    · intro i hne
      have hcodes := hsame hb
      have hkind := kind_mem_kinds ha
      cases x with
      | rxMer r =>
        exact ⟨List.mem_singleton.1 hkind, RxMer.swapped_of_lowestFrom hcodes.symm hne⟩
      | _ => exact absurd (congrArg (·[i]?) hcodes.symm) hne

/-- One level, the highest one. -/
def highestLevel : RxMer where
  preamble := { kind := .rxMer, major := 1, minor := 0, captureTime := 100 }
  channel := 3
  mac := .unset
  layout := { zeroFrequencyHz := 0, firstActive := 148, spacingKhz := 50 }
  levels := [RxMer.levelOfCode 255]

/-- The files of one code that differ in the code only. -/
def fileOfCode (code : UInt8) : List UInt8 :=
  [0x50, 0x4E, 0x4E, 4, 1, 0, 0, 0, 0, 100] ++ highestLevel.front ++ declaredBytes [code]

theorem ofBytes_fileOfCode : ofBytes (fileOfCode 255) = .ok (rxMer highestLevel) := by
  have hparse : Header.parse (fileOfCode 255) = .ok { (rxMer highestLevel).toHeader with
      payload := highestLevel.front ++ declaredBytes [255] } :=
    Header.parse_eq_ok.2 ⟨[0x50, 0x4E, 0x4E], rfl, by decide +kernel, rfl, by decide, rfl⟩
  have hreads : (rxMer highestLevel).Reads (highestLevel.front ++ declaredBytes [255]) :=
    RxMer.decode_reader_eq_ok.2 ⟨rfl, [255], by decide, rfl, rfl⟩
  exact bind_eq_ok.2 ⟨_, hparse, decode_eq_ok.2 ⟨rfl, rfl, by decide, hreads⟩⟩

theorem highest_level_of_two_codes :
    ofBytes (fileOfCode 254) = .ok (rxMer highestLevel) ∧
      (rxMer highestLevel).toBytes = fileOfCode 254 := by
  obtain ⟨hwrite, -, hsame⟩ := decoding_loses_level_codes_only ofBytes_fileOfCode
  obtain ⟨hread, -⟩ := hsame (fileOfCode 254)
  exact ⟨hread.2 rfl, hwrite.trans rfl⟩

end Capture

end CableCapture
