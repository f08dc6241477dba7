import FecRelay.Base.Reassembly
import FecRelay.Utility

/-!
# The stream codec

What the code uses of Siamese, a vendored library that is a parameter of the model.
An encoder numbers the packets it is given and emits recovery packets that cover
them; a decoder collects both and hands out packets it could recover. `EncoderRun`
and `Fed` describe objects that were only used through these calls, and the laws
say what the code relies on about them.
-/

namespace FecRelay

open FecRelay.Base

/-! ## Constants and result codes -/

/-- `SiameseResult`. -/
inductive SiameseResult where
  | success
  | invalidInput
  | needMoreData
  | maxPacketsReached
  | duplicateData
  | disabled
  deriving DecidableEq, Repr

/-- The underlying value of the enumerator. -/
def SiameseResult.code : SiameseResult → Nat
  | success => 0
  | invalidInput => 1
  | needMoreData => 2
  | maxPacketsReached => 3
  | duplicateData => 4
  | disabled => 5

/-- `SIAMESE_PACKET_NUM_COUNT`. -/
def siamesePacketNumCount : Nat := 2 ^ 22

/-- `SIAMESE_PACKET_NUM_INC(x)`, on an `unsigned`. -/
def siamesePacketNumInc (x : Nat) : Nat := (x + 1) % siamesePacketNumCount

theorem siamesePacketNumInc_of_lt {x : Nat} (h : x + 1 < siamesePacketNumCount) :
    siamesePacketNumInc x = x + 1 := Nat.mod_eq_of_lt h

/-! ## The interface -/

/-- The calls of `siamese.h` on encoder and decoder objects. Whatever a call fills in
is part of its result, and so is the object it leaves. -/
structure Siamese where
  Encoder : Type
  Decoder : Type
  /-- `siamese_encoder_create()` -/
  encoderCreate : Encoder
  /-- `siamese_encoder_add(encoder, &packet)`: the number given to the packet -/
  encoderAdd : Encoder → Bytes → SiameseResult × Nat × Encoder
  /-- `siamese_encode(encoder, &recovery)` -/
  encode : Encoder → SiameseResult × Bytes × Encoder
  /-- `siamese_encoder_ack(encoder, buffer, bytes, &nextExpectedPacketNum)` -/
  encoderAck : Encoder → Bytes → SiameseResult × Nat × Encoder
  /-- `siamese_decoder_create()` -/
  decoderCreate : Decoder
  /-- `siamese_decoder_add_original(decoder, &packet)` -/
  decoderAddOriginal : Decoder → Nat → Bytes → SiameseResult × Decoder
  /-- `siamese_decoder_add_recovery(decoder, &packet)` -/
  decoderAddRecovery : Decoder → Bytes → SiameseResult × Decoder
  /-- `siamese_decoder_is_ready(decoder)` -/
  decoderIsReady : Decoder → SiameseResult × Decoder
  /-- `siamese_decode(decoder, &packets, &count)`: the packets with their numbers -/
  decode : Decoder → SiameseResult × List (Nat × Bytes) × Decoder
  /-- `siamese_decoder_ack(decoder, buffer, byteLimit, &usedBytes)`: the bytes used -/
  decoderAck : Decoder → Nat → SiameseResult × Bytes × Decoder

namespace Siamese

variable (S : Siamese)

/-! ## What an encoder was given and emitted -/

/-- An encoder that accepted the packets `added`, in this order, and emitted the
recovery packets `emitted`. -/
inductive EncoderRun : List Bytes → List Bytes → S.Encoder → Prop
  | create : EncoderRun [] [] S.encoderCreate
  | add {added emitted : List Bytes} {e : S.Encoder} {data : Bytes} :
      EncoderRun added emitted e → (S.encoderAdd e data).1 = .success →
      EncoderRun (added ++ [data]) emitted (S.encoderAdd e data).2.2
  | encode {added emitted : List Bytes} {e : S.Encoder} :
      EncoderRun added emitted e → (S.encode e).1 = .success →
      EncoderRun added (emitted ++ [(S.encode e).2.1]) (S.encode e).2.2
  | ack {added emitted : List Bytes} {e : S.Encoder} (message : Bytes) :
      EncoderRun added emitted e → EncoderRun added emitted (S.encoderAck e message).2.2

/-- Packets are numbered 0, 1, 2, … as they are added. -/
def Numbers : Prop :=
  ∀ (added emitted : List Bytes) (e : S.Encoder) (data : Bytes),
    S.EncoderRun added emitted e → (S.encoderAdd e data).1 = .success →
    (S.encoderAdd e data).2.1 = added.length % siamesePacketNumCount

/-! ## What a decoder was given -/

/-- A decoder that was given nothing but packets of `added` under their numbers and
recovery packets from `emitted`. -/
inductive Fed (added emitted : List Bytes) : S.Decoder → Prop
  | create : Fed added emitted S.decoderCreate
  | addOriginal {d : S.Decoder} {num : Nat} {data : Bytes} :
      Fed added emitted d → added[num]? = some data →
      Fed added emitted (S.decoderAddOriginal d num data).2
  | addRecovery {d : S.Decoder} {data : Bytes} :
      Fed added emitted d → data ∈ emitted →
      Fed added emitted (S.decoderAddRecovery d data).2
  | isReady {d : S.Decoder} :
      Fed added emitted d → Fed added emitted (S.decoderIsReady d).2
  | decode {d : S.Decoder} :
      Fed added emitted d → Fed added emitted (S.decode d).2.2
  | ack {d : S.Decoder} (byteLimit : Nat) :
      Fed added emitted d → Fed added emitted (S.decoderAck d byteLimit).2.2

/-- A decoder was given what its peer has added and emitted also when the peer has
added and emitted more since. -/
theorem Fed.mono {S : Siamese} {added emitted added' emitted' : List Bytes} {d : S.Decoder}
    (h : S.Fed added emitted d) (hadded : added <+: added')
    (hemitted : emitted <+: emitted') : S.Fed added' emitted' d := by
  induction h with
  | create => exact .create
  | addOriginal _ hnum ih => exact .addOriginal ih (Reassembly.getElem?_of_prefix hadded hnum)
  | addRecovery _ hmem ih => exact .addRecovery ih (hemitted.subset hmem)
  | isReady _ ih => exact .isReady ih
  | decode _ ih => exact .decode ih
  | ack byteLimit _ ih => exact .ack byteLimit ih

/-- A recovered packet has the bytes the peer's encoder was given under its number. -/
def Recovers : Prop :=
  ∀ (added emitted : List Bytes) (e : S.Encoder) (d : S.Decoder),
    S.EncoderRun added emitted e → added.length ≤ siamesePacketNumCount →
    S.Fed added emitted d → (S.decode d).1 = .success →
    ∀ packet ∈ (S.decode d).2.1, added[packet.1]? = some packet.2

/-! ## What a decoder has seen -/

/-- A decoder that has seen the packets numbered `nums`, as originals or recovered, and
has refused nothing. A packet may have come several times. -/
inductive Sees : List Nat → S.Decoder → Prop
  | create : Sees [] S.decoderCreate
  | addOriginal {nums : List Nat} {d : S.Decoder} {num : Nat} {data : Bytes} :
      Sees nums d → (S.decoderAddOriginal d num data).1 = .success ∨
        (S.decoderAddOriginal d num data).1 = .duplicateData →
      Sees (nums ++ [num]) (S.decoderAddOriginal d num data).2
  | addRecovery {nums : List Nat} {d : S.Decoder} {data : Bytes} :
      Sees nums d → (S.decoderAddRecovery d data).1 = .success →
      Sees nums (S.decoderAddRecovery d data).2
  | isReady {nums : List Nat} {d : S.Decoder} :
      Sees nums d → (S.decoderIsReady d).1 = .success ∨ (S.decoderIsReady d).1 = .needMoreData →
      Sees nums (S.decoderIsReady d).2
  | decode {nums : List Nat} {d : S.Decoder} :
      Sees nums d → (S.decode d).1 = .success →
      Sees (nums ++ (S.decode d).2.1.map (·.1)) (S.decode d).2.2

/-- Recovered packets are distinct and are seen for the first time. -/
def DecodesFirstSeen : Prop :=
  ∀ (nums : List Nat) (d : S.Decoder), S.Sees nums d → (S.decode d).1 = .success →
    ((S.decode d).2.1.map (·.1)).Nodup ∧
      ∀ packet ∈ (S.decode d).2.1, packet.1 ∉ nums ∧ packet.1 < siamesePacketNumCount

end Siamese

end FecRelay
