import FecRelay.Codec.Siamese

/-!
# What the stream codec promises a decoder

A decoder that has heard an encoder was given nothing but what the encoder added and
emitted, whatever of it was lost, reordered or given twice. `Progresses` is what a decode
loop needs to end. `Interface` is what `siamese.h` promises such a decoder: honest data is
no error, and a decoder that is ready may still fail to solve. `Stalls` tells where a codec
answers what its caller does not expect.
-/

namespace FecRelay

/-- `SIAMESE_ACK_MIN_BYTES`. -/
def siameseAckMinBytes : Nat := 16

namespace Siamese

variable (S : Siamese)

/-- An ack fits the buffer that there is for it. -/
def AcksWithin : Prop :=
  ∀ (d : S.Decoder) (byteLimit : Nat), siameseAckMinBytes ≤ byteLimit →
    (S.decoderAck d byteLimit).1 = .success → (S.decoderAck d byteLimit).2.1.length ≤ byteLimit

/-- A decoder that was given nothing but packets of `added`, under the numbers the
encoder gave them, and recovery packets from `emitted`. -/
inductive Heard (added emitted : List Bytes) : S.Decoder → Prop
  | create : Heard added emitted S.decoderCreate
  | addOriginal {d : S.Decoder} {k : Nat} {data : Bytes} :
      Heard added emitted d → added[k]? = some data →
      Heard added emitted (S.decoderAddOriginal d (k % siamesePacketNumCount) data).2
  | addRecovery {d : S.Decoder} {data : Bytes} :
      Heard added emitted d → data ∈ emitted →
      Heard added emitted (S.decoderAddRecovery d data).2
  | isReady {d : S.Decoder} :
      Heard added emitted d → Heard added emitted (S.decoderIsReady d).2
  | decode {d : S.Decoder} :
      Heard added emitted d → Heard added emitted (S.decode d).2.2
  | ack {d : S.Decoder} (byteLimit : Nat) :
      Heard added emitted d → Heard added emitted (S.decoderAck d byteLimit).2.2

/-! ## Passes of a decode loop -/

/-- The decoder is ready, and the decode succeeds. -/
def Solves (d : S.Decoder) : Prop :=
  (S.decoderIsReady d).1 = .success ∧ (S.decode (S.decoderIsReady d).2).1 = .success

/-- The decoder after a pass. -/
def solved (d : S.Decoder) : S.Decoder := (S.decode (S.decoderIsReady d).2).2.2

/-- The packets that a pass recovers. -/
def solution (d : S.Decoder) : List (Nat × Bytes) := (S.decode (S.decoderIsReady d).2).2.1

/-- Some passes one after another, and the numbers of the packets they recovered. -/
inductive Drains (d : S.Decoder) : List Nat → S.Decoder → Prop
  | start : Drains d [] d
  | pass {nums : List Nat} {d' : S.Decoder} :
      Drains d nums d' → S.Solves d' →
      Drains d (nums ++ (S.solution d').map (·.1)) (S.solved d')

/-! ## Answers -/

/-- A decode that succeeds recovers something, and nothing that the passes before it did. -/
structure Progresses : Prop where
  recovers : ∀ ⦃added emitted : List Bytes⦄ ⦃e : S.Encoder⦄ ⦃d : S.Decoder⦄,
    S.EncoderRun added emitted e → S.Heard added emitted d → (S.decode d).1 = .success →
    (S.decode d).2.1 ≠ []
  firstSeen : ∀ ⦃added emitted : List Bytes⦄ ⦃e : S.Encoder⦄ ⦃d d' : S.Decoder⦄ ⦃nums : List Nat⦄,
    S.EncoderRun added emitted e → S.Heard added emitted d → S.Drains d nums d' →
    nums.Nodup ∧ ∀ num ∈ nums, num < siamesePacketNumCount

/-- What `siamese.h` promises a decoder that has heard an encoder. Siamese breaks it: a
decoder can be disabled where another decoder of the encoder was ahead of it. -/
structure Interface : Prop extends Progresses S where
  /-- An original packet is taken, or reported as a duplicate. -/
  original : ∀ ⦃added emitted : List Bytes⦄ ⦃e : S.Encoder⦄ ⦃d : S.Decoder⦄ ⦃k : Nat⦄
    ⦃data : Bytes⦄, S.EncoderRun added emitted e → S.Heard added emitted d →
    added[k]? = some data →
    (S.decoderAddOriginal d (k % siamesePacketNumCount) data).1 = .success ∨
      (S.decoderAddOriginal d (k % siamesePacketNumCount) data).1 = .duplicateData
  recovery : ∀ ⦃added emitted : List Bytes⦄ ⦃e : S.Encoder⦄ ⦃d : S.Decoder⦄ ⦃data : Bytes⦄,
    S.EncoderRun added emitted e → S.Heard added emitted d → data ∈ emitted →
    (S.decoderAddRecovery d data).1 = .success
  ready : ∀ ⦃added emitted : List Bytes⦄ ⦃e : S.Encoder⦄ ⦃d : S.Decoder⦄,
    S.EncoderRun added emitted e → S.Heard added emitted d →
    (S.decoderIsReady d).1 = .success ∨ (S.decoderIsReady d).1 = .needMoreData
  decode : ∀ ⦃added emitted : List Bytes⦄ ⦃e : S.Encoder⦄ ⦃d : S.Decoder⦄,
    S.EncoderRun added emitted e → S.Heard added emitted d →
    (S.decode d).1 = .success ∨ (S.decode d).1 = .needMoreData
  ack : ∀ ⦃added emitted : List Bytes⦄ ⦃e : S.Encoder⦄ ⦃d : S.Decoder⦄ ⦃byteLimit : Nat⦄,
    S.EncoderRun added emitted e → S.Heard added emitted d → siameseAckMinBytes ≤ byteLimit →
    (S.decoderAck d byteLimit).1 = .success ∨ (S.decoderAck d byteLimit).1 = .needMoreData

/-- At once or after some passes, the decoder is asked for what it does not do: to say
whether it is ready, to solve, or to acknowledge where it needs more data. -/
inductive Stalls : S.Decoder → Prop
  | refused {d : S.Decoder} : (S.decoderIsReady d).1 ≠ .success →
      (S.decoderIsReady d).1 ≠ .needMoreData → Stalls d
  | unsolved {d : S.Decoder} : (S.decoderIsReady d).1 = .success →
      (S.decode (S.decoderIsReady d).2).1 ≠ .success → Stalls d
  | later {d : S.Decoder} : S.Solves d → Stalls (S.solved d) → Stalls d
  | noData {d : S.Decoder} : (S.decoderIsReady d).1 = .needMoreData →
      (S.decoderAck (S.decoderIsReady d).2 maxBlockPacketSize).1 ≠ .success → Stalls d

variable {S}

theorem Heard.solved {added emitted : List Bytes} {d : S.Decoder} (h : S.Heard added emitted d) :
    S.Heard added emitted (S.solved d) :=
  .decode (.isReady h)

theorem Drains.heard {added emitted : List Bytes} {d d' : S.Decoder} {nums : List Nat}
    (h : S.Drains d nums d') (hd : S.Heard added emitted d) : S.Heard added emitted d' := by
  induction h with
  | start => exact hd
  | pass _ _ ih => exact ih.solved

/-- There are no more distinct packets than numbers. -/
theorem length_le_packetNumCount {nums : List Nat} (hnodup : nums.Nodup)
    (hlt : ∀ num ∈ nums, num < siamesePacketNumCount) : nums.length ≤ siamesePacketNumCount := by
  have hsub : nums.toFinset ⊆ Finset.range siamesePacketNumCount := by
    intro num hnum
    exact Finset.mem_range.mpr (hlt num (List.mem_toFinset.mp hnum))
  calc nums.length = nums.toFinset.card := (List.toFinset_card_of_nodup hnodup).symm
    _ ≤ (Finset.range siamesePacketNumCount).card := Finset.card_le_card hsub
    _ = siamesePacketNumCount := Finset.card_range _

/-- Loop rule for the decode loop: what holds where the passes end, and is handed back
from the state after a pass to the state before it, holds where the loop starts. -/
theorem Progresses.drain_induction (hS : S.Progresses) {added emitted : List Bytes} {e : S.Encoder}
    (henc : S.EncoderRun added emitted e) {P : S.Decoder → Prop}
    (stop : ∀ d, S.Heard added emitted d → ¬ S.Solves d → P d)
    (pass : ∀ d, S.Heard added emitted d → S.Solves d → P (S.solved d) → P d)
    {d : S.Decoder} (hd : S.Heard added emitted d) : P d := by
  have hall : ∀ room nums d', S.Drains d nums d' → siamesePacketNumCount ≤ nums.length + room →
      P d' := by
    intro room
    induction room with
    | zero =>
        -- every number was recovered, so another pass has nothing to recover
        intro nums d' hdrains hroom
        apply stop d' (hdrains.heard hd)
        intro hsolves
        have hnew := hS.firstSeen henc hd (hdrains.pass hsolves)
        have hbound := length_le_packetNumCount hnew.1 hnew.2
        have hsome : S.solution d' ≠ [] :=
          hS.recovers henc (.isReady (hdrains.heard hd)) hsolves.2
        have hpos := List.length_pos_iff.mpr hsome
        rw [List.length_append, List.length_map] at hbound
        omega
    | succ room ih =>
        intro nums d' hdrains hroom
        by_cases hsolves : S.Solves d'
        · have hsome : S.solution d' ≠ [] :=
            hS.recovers henc (.isReady (hdrains.heard hd)) hsolves.2
          have hpos := List.length_pos_iff.mpr hsome
          apply pass d' (hdrains.heard hd) hsolves
          apply ih _ _ (hdrains.pass hsolves)
          rw [List.length_append, List.length_map]
          omega
        · exact stop d' (hdrains.heard hd) hsolves
  exact hall siamesePacketNumCount [] d .start (Nat.le_add_left _ _)

end Siamese

end FecRelay
