import CableCapture.Capture
import CableCapture.Proofs.Reader.Faults

/-!
# What may be wrong with a payload

Every record's reader fails on a length alone: that of the payload, or one of a block in it. Only
modulation profiles can hold something else that is wrong, a scheme of an unknown type.
-/

namespace CableCapture

open Reader

variable {kind : CaptureKind}

/-! ## Blocks -/

section Streams

variable {f : FixedPoint}

/-- Where components are two bytes wide, only the number of bytes can be wrong. -/
theorem FixedPoint.failsWith_decodeStream (hwidth : f.byteWidth = .ok 2) (data : List UInt8) :
    FailsWith (Fault.OfPayload kind) (check (f.decodeStream data true)) := by
  refine .check fun fault h => ?_
  unfold decodeStream at h
  rw [hwidth, ok_bind] at h
  dsimp only at h
  split at h
  · cases h
  · rw [← Except.error.inj h]
    exact .length kind _

end Streams

theorem SubcarrierLayout.failsWith_reader :
    SubcarrierLayout.reader.FailsWith (Fault.OfPayload kind) :=
  .bind (.uint32 _) fun _ => .bind (.uint16 _) fun _ => .bind (.uint8 _) fun _ => .pure _

theorem Histogram.failsWith_counters (block : String) (data : List UInt8) :
    FailsWith (Fault.OfPayload kind) (check (Histogram.counters block data)) := by
  refine .check fun fault h => ?_
  unfold Histogram.counters at h
  split at h
  · cases h
  · rw [← Except.error.inj h]
    exact .length kind _

theorem Spectrum.failsWith_segmentsOf (binsPerSegment : UInt16) (data : List UInt8) :
    FailsWith (Fault.OfPayload kind) (check (Spectrum.segmentsOf binsPerSegment data)) := by
  refine .check fun fault h => ?_
  unfold Spectrum.segmentsOf at h
  split at h
  · rw [← Except.error.inj h]
    exact .length kind _
  · split at h
    · cases h
    · split at h
      · rw [← Except.error.inj h]
        exact .length kind _
      · cases h

theorem CodewordSet.failsWith_reader : CodewordSet.reader.FailsWith (Fault.OfPayload kind) :=
  .bind (.uint32 _) fun _ => .bind (.uint32 _) fun _ => .bind (.uint32 _) fun _ =>
    .bind (.uint32 _) fun _ => .pure _

theorem FecProfile.failsWith_reader : FecProfile.reader.FailsWith (Fault.OfPayload kind) :=
  .bind (.uint8 _) fun _ => .bind (.uint16 _) fun _ =>
    .bind (CodewordSet.failsWith_reader.times _) fun _ => .pure _

theorem ModulationScheme.failsWith_bodyReader (type : UInt8) :
    (ModulationScheme.bodyReader type).FailsWith (Fault.OfPayload .modulationProfile) := by
  unfold ModulationScheme.bodyReader
  split
  · exact .bind (.uint8 _) fun _ => .bind (.uint16 _) fun _ => .pure _
  · split
    · exact .bind (.uint8 _) fun _ => .bind (.uint8 _) fun _ => .bind (.uint16 _) fun _ => .pure _
    · exact .throw (.scheme type)

theorem ModulationScheme.failsWith_reader :
    ModulationScheme.reader.FailsWith (Fault.OfPayload .modulationProfile) :=
  .bind (.uint8 _) failsWith_bodyReader

theorem ModulationProfile.failsWith_reader :
    ModulationProfile.reader.FailsWith (Fault.OfPayload .modulationProfile) :=
  .bind (.uint8 _) fun _ => .bind (.uint16 _) fun _ => .bind (.take _ _) fun _ =>
    .bind (.check fun _ => ModulationScheme.failsWith_reader.untilEnd _) fun _ => .pure _

/-! ## Records -/

theorem SymbolCapture.failsWith_reader (preamble : Preamble) :
    (SymbolCapture.reader preamble).FailsWith (Fault.OfPayload kind) :=
  .bind (.uint8 _) fun _ => .bind (.mac _) fun _ => .bind (.uint32 _) fun _ =>
    .bind (.uint16 _) fun _ => .bind (.uint32 _) fun _ => .bind (.declared _) fun _ =>
      .bind (.finish _) fun _ => .bind (FixedPoint.failsWith_decodeStream rfl _) fun _ => .pure _

theorem ChannelEstimate.failsWith_reader (preamble : Preamble) :
    (ChannelEstimate.reader preamble).FailsWith (Fault.OfPayload kind) :=
  .bind (.uint8 _) fun _ => .bind (.mac _) fun _ => .bind SubcarrierLayout.failsWith_reader fun _ =>
    .bind (.declared _) fun _ => .bind (.finish _) fun _ =>
      .bind (FixedPoint.failsWith_decodeStream rfl _) fun _ => .pure _

theorem Constellation.failsWith_reader (preamble : Preamble) :
    (Constellation.reader preamble).FailsWith (Fault.OfPayload kind) :=
  .bind (.uint8 _) fun _ => .bind (.mac _) fun _ => .bind (.uint32 _) fun _ =>
    .bind (.uint16 _) fun _ => .bind (.uint16 _) fun _ => .bind (.uint8 _) fun _ =>
      .bind (.declared _) fun _ => .bind (.finish _) fun _ =>
        .bind (FixedPoint.failsWith_decodeStream rfl _) fun _ => .pure _

theorem RxMer.failsWith_reader (preamble : Preamble) :
    (RxMer.reader preamble).FailsWith (Fault.OfPayload kind) :=
  .bind (.uint8 _) fun _ => .bind (.mac _) fun _ => .bind SubcarrierLayout.failsWith_reader fun _ =>
    .bind (.declared _) fun _ => .bind (.finish _) fun _ => .pure _

theorem Histogram.failsWith_reader (preamble : Preamble) :
    (Histogram.reader preamble).FailsWith (Fault.OfPayload kind) :=
  .bind (.mac _) fun _ => .bind (.uint8 _) fun _ => .bind (.declared _) fun _ =>
    .bind (.declared _) fun _ => .bind (.finish _) fun _ => .bind (failsWith_counters _ _) fun _ =>
      .bind (failsWith_counters _ _) fun _ => .pure _

theorem PreEqualization.failsWith_reader (preamble : Preamble) :
    (PreEqualization.reader preamble).FailsWith (Fault.OfPayload kind) :=
  .bind (.uint8 _) fun _ => .bind (.mac _) fun _ => .bind (.mac _) fun _ =>
    .bind SubcarrierLayout.failsWith_reader fun _ => .bind (.declared _) fun _ =>
      .bind (.finish _) fun _ => .bind (FixedPoint.failsWith_decodeStream rfl _) fun _ => .pure _

theorem FecSummary.failsWith_reader (preamble : Preamble) :
    (FecSummary.reader preamble).FailsWith (Fault.OfPayload kind) :=
  .bind (.uint8 _) fun _ => .bind (.mac _) fun _ => .bind (.uint8 _) fun _ =>
    .bind (.uint8 _) fun _ => .bind (FecProfile.failsWith_reader.times _) fun _ =>
      .bind (.finish _) fun _ => .pure _

theorem Spectrum.failsWith_reader (preamble : Preamble) :
    (Spectrum.reader preamble).FailsWith (Fault.OfPayload kind) :=
  .bind (.uint8 _) fun _ => .bind (.mac _) fun _ => .bind (.uint32 _) fun _ =>
    .bind (.uint32 _) fun _ => .bind (.uint32 _) fun _ => .bind (.uint16 _) fun _ =>
      .bind (.uint16 _) fun _ => .bind (.uint16 _) fun _ => .bind (.declared _) fun _ =>
        .bind (.finish _) fun _ => .bind (failsWith_segmentsOf _ _) fun _ => .pure _

theorem ModulationProfiles.failsWith_reader (preamble : Preamble) :
    (ModulationProfiles.reader preamble).FailsWith (Fault.OfPayload .modulationProfile) :=
  .bind (.uint8 _) fun _ => .bind (.mac _) fun _ => .bind SubcarrierLayout.failsWith_reader fun _ =>
    .bind (.declared _) fun _ => .bind (.finish _) fun _ =>
      .bind (.check fun _ => ModulationProfile.failsWith_reader.untilEnd _) fun _ => .pure _

end CableCapture
