import FecRelay.Codec.Decoding
import FecRelay.Codec.EncoderWindow
import FecRelay.Codec.Echo

/-!
# A stream codec that is its window

Its encoder is the encoder window itself, and its recovery packets have the length and
the footer of real ones, with nothing but zeros in front. A decoder that is given such
packets recovers nothing. It stands in for Siamese where a run is to be shown in which
it matters what the encoder's window holds.
-/

namespace FecRelay

open FecRelay.Base

namespace Windowing

/-- A recovery packet of zeros with the footer of a real one, if the window is not empty -/
def encode (s : SiameseEncoder) : SiameseResult × Bytes × SiameseEncoder :=
  if s.window.count = 0 then (.needMoreData, [], s)
  else (.success, List.replicate s.encode.1.bytes 0 ++
    serializeFooterRecoveryMetadata s.encode.1.metadata 0, s.encode.2)

/-- An ack of which only the next expected packet and the loss ranges are read -/
def encoderAck (s : SiameseEncoder) (message : Bytes) : SiameseResult × Nat × SiameseEncoder :=
  match deserializeHeaderPacketNum message with
  | none => (.invalidInput, 0, s)
  | some (num, ranges) =>
      (.success, (s.acknowledge num ranges).ack.nextColumnExpected, s.acknowledge num ranges)

end Windowing

/-- The codec of the window. What it adds and acknowledges is Siamese's own. -/
@[reducible] def windowing : Siamese where
  Encoder := SiameseEncoder
  Decoder := Echo
  encoderCreate := {}
  encoderAdd := SiameseEncoder.add
  encode := Windowing.encode
  encoderAck := Windowing.encoderAck
  decoderCreate := {}
  decoderAddOriginal d num _ := d.addOriginal num
  decoderAddRecovery d _ := (.success, d)
  decoderIsReady d := (.needMoreData, d)
  decode d := (.needMoreData, [], d)
  decoderAck d _ :=
    if d.seen = [] then (.needMoreData, [], d)
    else (.success, serializeHeaderPacketNum (d.expects % siamesePacketNumCount), d)

namespace Windowing

theorem encode_of_empty {s : SiameseEncoder} (h : s.window.count = 0) :
    encode s = (.needMoreData, [], s) := by
  simp [encode, h]

theorem encode_of_ne {s : SiameseEncoder} (h : s.window.count ≠ 0) : encode s =
    (.success, List.replicate s.encode.1.bytes 0 ++
      serializeFooterRecoveryMetadata s.encode.1.metadata 0, s.encode.2) := by
  simp [encode, h]

theorem encoderAck_of_none {s : SiameseEncoder} {message : Bytes}
    (h : deserializeHeaderPacketNum message = none) :
    encoderAck s message = (.invalidInput, 0, s) := by
  simp [encoderAck, h]

theorem encoderAck_of_some {s : SiameseEncoder} {message ranges : Bytes} {num : Nat}
    (h : deserializeHeaderPacketNum message = some (num, ranges)) : encoderAck s message =
      (.success, (s.acknowledge num ranges).ack.nextColumnExpected, s.acknowledge num ranges) := by
  simp [encoderAck, h]

theorem windowed : windowing.Windowed id where
  create := rfl
  add _ _ := rfl
  encode_empty s hcount := by
    have hempty := encode_of_empty hcount
    exact ⟨congrArg Prod.fst hempty, congrArg (·.2.2) hempty⟩
  encode s hcount := by
    have hencode := encode_of_ne hcount
    refine ⟨congrArg Prod.fst hencode, congrArg (·.2.2) hencode, _, 0, ?_,
      congrArg (·.2.1) hencode⟩
    exact List.length_replicate
  ack s message hsuccess := by
    cases hnum : deserializeHeaderPacketNum message with
    | none =>
        have hinvalid : (encoderAck s message).1 = .success := hsuccess
        rw [encoderAck_of_none hnum] at hinvalid
        cases hinvalid
    | some x =>
        have hack := encoderAck_of_some (s := s) hnum
        exact ⟨x.1, x.2, rfl, congrArg (·.2.2) hack, congrArg (·.2.1) hack⟩
  ack_refused s message hrefused := by
    cases hnum : deserializeHeaderPacketNum message with
    | none => exact congrArg (fun r => r.2.2.window) (encoderAck_of_none hnum)
    | some x => exact absurd (congrArg Prod.fst (encoderAck_of_some (s := s) hnum)) hrefused

theorem recovers : windowing.Recovers := by
  intro added emitted s d _ _ _ hsuccess
  cases hsuccess

theorem acksWithin : windowing.AcksWithin := by
  intro d byteLimit hlimit hsuccess
  have hsize := serializeHeaderPacketNum_length_le (d.expects % siamesePacketNumCount)
  unfold siameseAckMinBytes at hlimit
  dsimp only at hsuccess ⊢
  split at hsuccess
  · cases hsuccess
  · next hseen =>
      rw [if_neg hseen]
      exact hsize.trans (by omega)

end Windowing

end FecRelay
