import FecRelay.Base.Chunks
import FecRelay.Utility

/-!
# The block codec

What the code uses of Wirehair, a vendored library that is a parameter of the
model. The law the code relies on is `Recovers`: a decoder that was given symbols
of one message and reports success writes that message. `replicating` is a codec
that obeys it, with the block count computed as Wirehair does.
-/

namespace FecRelay

open FecRelay.Base

/-! ## Result codes -/

/-- `WirehairResult`. -/
inductive WirehairResult where
  | success
  | needMore
  | invalidInput
  | badDenseSeed
  | badPeelSeed
  | badInputSmallN
  | badInputLargeN
  | extraInsufficient
  | error
  | oom
  | unsupportedPlatform
  deriving DecidableEq, Repr

/-- `wirehair_result_string(result)`. -/
def WirehairResult.string : WirehairResult → String
  | success => "Wirehair_Success"
  | needMore => "Wirehair_NeedMore"
  | badDenseSeed => "Wirehair_BadDenseSeed"
  | badPeelSeed => "Wirehair_BadPeelSeed"
  | badInputSmallN => "Wirehair_BadInput_SmallN"
  | badInputLargeN => "Wirehair_BadInput_LargeN"
  | extraInsufficient => "Wirehair_ExtraInsufficient"
  | invalidInput => "Wirehair_InvalidInput"
  | oom => "Wirehair_OOM"
  | unsupportedPlatform => "Wirehair_UnsupportedPlatform"
  | error => "Unknown"

/-! ## The interface -/

/-- The calls of `wirehair.h` on a codec object. A buffer that a call fills is part
of its result, and so is the object where a call changes it. -/
structure Wirehair where
  Codec : Type
  /-- `wirehair_encoder_create(nullptr, message, messageBytes, blockBytes)` -/
  encoderCreate : Bytes → Nat → Option Codec
  /-- `wirehair_decoder_create(nullptr, messageBytes, blockBytes)` -/
  decoderCreate : Nat → Nat → Option Codec
  /-- `wirehair_encode(codec, blockId, out, outBytes, &written)`: the bytes written -/
  encode : Codec → Nat → Nat → WirehairResult × Bytes
  /-- `wirehair_decode(codec, blockId, data, dataBytes)` -/
  decode : Codec → Nat → Bytes → WirehairResult × Codec
  /-- `wirehair_recover(codec, out, messageBytes)`: the contents of the buffer -/
  recover : Codec → Nat → WirehairResult × Bytes
  /-- `wirehair_decoder_becomes_encoder(codec)` -/
  becomesEncoder : Codec → WirehairResult × Codec

namespace Wirehair

variable (W : Wirehair)

/-- `data` is symbol `id` of `message`: a chunk of it, or what its encoder writes. -/
def SymbolOf (message : Bytes) (blockBytes : Nat) (encoder : W.Codec) (id : Nat)
    (data : Bytes) : Prop :=
  if id < Chunks.count blockBytes message.length then data = Chunks.chunk blockBytes message id
  else W.encode encoder id blockBytes = (.success, data)

/-- A decoder made for the size of `message` that was given nothing but symbols of it,
those numbered `ids`, the latest first. -/
inductive Fed (message : Bytes) (blockBytes : Nat) (encoder : W.Codec) :
    List Nat → W.Codec → Prop
  | create {decoder : W.Codec} :
      W.decoderCreate message.length blockBytes = some decoder →
      Fed message blockBytes encoder [] decoder
  | decode {ids : List Nat} {decoder : W.Codec} {id : Nat} {data : Bytes} :
      Fed message blockBytes encoder ids decoder →
      W.SymbolOf message blockBytes encoder id data →
      Fed message blockBytes encoder (id :: ids) (W.decode decoder id data).2
  | becomesEncoder {ids : List Nat} {decoder : W.Codec} :
      Fed message blockBytes encoder ids decoder →
      (W.becomesEncoder decoder).1 ≠ .success →
      Fed message blockBytes encoder ids (W.becomesEncoder decoder).2

/-- A decode of symbol `id` that reports success means that the message is recovered. -/
def RecoversAt (message : Bytes) (blockBytes : Nat) (ids : List Nat) (id : Nat) : Prop :=
  ∀ (encoder decoder : W.Codec) (data : Bytes),
    W.encoderCreate message blockBytes = some encoder →
    W.Fed message blockBytes encoder ids decoder →
    W.SymbolOf message blockBytes encoder id data →
    (W.decode decoder id data).1 = .success →
    W.recover (W.decode decoder id data).2 message.length = (.success, message)

/-- With matching message and block sizes, success means that the message is recovered. -/
def Recovers : Prop :=
  ∀ message blockBytes ids id, W.RecoversAt message blockBytes ids id

/-- The same within the preconditions of `wirehair.h`: from 2 to 64000 blocks, and no
block id used twice. -/
def RecoversDistinct : Prop :=
  ∀ (message : Bytes) (blockBytes : Nat) (ids : List Nat) (id : Nat),
    2 ≤ Chunks.count blockBytes message.length →
    Chunks.count blockBytes message.length ≤ 64000 →
    (id :: ids).Nodup →
    W.RecoversAt message blockBytes ids id

theorem Recovers.distinct {W : Wirehair} (h : W.Recovers) : W.RecoversDistinct :=
  fun message blockBytes ids id _ _ _ => h message blockBytes ids id

/-- Within the same preconditions a decoder that recovered the message and became an encoder
writes symbols of it, so that what was received can be sent on. -/
def ReencodesDistinct : Prop :=
  ∀ (message : Bytes) (blockBytes : Nat) (encoder decoder : W.Codec) (ids : List Nat),
    2 ≤ Chunks.count blockBytes message.length →
    Chunks.count blockBytes message.length ≤ 64000 →
    ids.Nodup →
    W.encoderCreate message blockBytes = some encoder →
    W.Fed message blockBytes encoder ids decoder →
    W.recover decoder message.length = (.success, message) →
    (W.becomesEncoder decoder).1 = .success →
    ∀ id data, W.encode (W.becomesEncoder decoder).2 id blockBytes = (.success, data) →
      W.SymbolOf message blockBytes encoder id data

/-- What is written fits the buffer that there is for it. -/
def EncodesWithin : Prop :=
  ∀ (codec : W.Codec) (blockId outBytes : Nat), (W.encode codec blockId outBytes).1 = .success →
    (W.encode codec blockId outBytes).2.length ≤ outBytes

/-- There is no encoder for an empty message. -/
def RefusesEmpty : Prop := ∀ blockBytes, W.encoderCreate [] blockBytes = none

end Wirehair

/-! ## A codec that replicates

Its recovery symbols are copies of the chunks, so it decodes once it has seen a copy
of each. It stands in for Wirehair where a run is to be shown. -/

structure Replica where
  size : Nat
  blockBytes : Nat
  message : Bytes := []
  parts : Nat → Option Bytes := fun _ => none

namespace Replica

/-- `_block_count`, which is cut to 16 bits. -/
def blockCount (size blockBytes : Nat) : Nat := Chunks.count blockBytes size % 2 ^ 16

/-- The limits of `ChooseMatrix`. -/
def accepts (size blockBytes : Nat) : Bool :=
  decide (1 ≤ size) && decide (1 ≤ blockBytes) && decide (2 ≤ blockCount size blockBytes) &&
    decide (blockCount size blockBytes ≤ 64000)

def n (c : Replica) : Nat := blockCount c.size c.blockBytes

def store (c : Replica) (id : Nat) (data : Bytes) : Replica :=
  { c with parts := Function.update c.parts (id % c.n) (some data) }

def complete (c : Replica) : Bool := (List.range c.n).all fun i => (c.parts i).isSome

def output (c : Replica) : Bytes := (List.range c.n).flatMap fun i => (c.parts i).getD []

/-- The decoder holds nothing but chunks of `message`. -/
structure Holds (message : Bytes) (blockBytes : Nat) (c : Replica) : Prop where
  size_eq : c.size = message.length
  blockBytes_eq : c.blockBytes = blockBytes
  uncut : Chunks.count blockBytes message.length < 2 ^ 16
  positive : 0 < Chunks.count blockBytes message.length
  parts : ∀ i data, c.parts i = some data → data = Chunks.chunk blockBytes message i

theorem Holds.n_eq {message : Bytes} {blockBytes : Nat} {c : Replica}
    (h : Holds message blockBytes c) : c.n = Chunks.count blockBytes message.length := by
  unfold n blockCount
  rw [h.size_eq, h.blockBytes_eq]
  exact Nat.mod_eq_of_lt h.uncut

theorem Holds.store {message : Bytes} {blockBytes : Nat} {c : Replica}
    (h : Holds message blockBytes c) {id : Nat} {data : Bytes}
    (hdata : data = Chunks.chunk blockBytes message (id % c.n)) :
    Holds message blockBytes (c.store id data) := by
  refine ⟨h.size_eq, h.blockBytes_eq, h.uncut, h.positive, ?_⟩
  intro i part hpart
  have hpart : Function.update c.parts (id % c.n) (some data) i = some part := hpart
  by_cases hi : i = id % c.n
  · rw [hi, Function.update_self] at hpart
    cases hpart
    rw [hi, hdata]
  · rw [Function.update_of_ne hi] at hpart
    exact h.parts i part hpart

/-- A complete decoder puts the message together. -/
theorem Holds.output_eq {message : Bytes} {blockBytes : Nat} {c : Replica} (hb : 0 < blockBytes)
    (h : Holds message blockBytes c) (hc : c.complete = true) : c.output = message := by
  have hparts : ∀ i ∈ List.range c.n, (c.parts i).getD [] = Chunks.chunk blockBytes message i := by
    intro i hi
    obtain ⟨part, hpart⟩ := Option.isSome_iff_exists.mp (List.all_eq_true.mp hc i hi)
    rw [hpart]
    exact h.parts i part hpart
  unfold output
  rw [List.flatMap_congr hparts, h.n_eq]
  exact Chunks.flatMap_chunk hb message

end Replica

/-- Replication as a `Wirehair`. Its decoder declines a size whose block count is cut. -/
@[reducible] def replicating : Wirehair where
  Codec := Replica
  encoderCreate message blockBytes :=
    if Replica.accepts message.length blockBytes then
      some { size := message.length, blockBytes := blockBytes, message := message }
    else none
  decoderCreate size blockBytes :=
    if Replica.accepts size blockBytes && decide (Chunks.count blockBytes size < 2 ^ 16) then
      some { size := size, blockBytes := blockBytes }
    else none
  encode c blockId _ := (.success, Chunks.chunk c.blockBytes c.message (blockId % c.n))
  decode c blockId data :=
    if (c.store blockId data).complete then (.success, c.store blockId data)
    else (.needMore, c.store blockId data)
  recover c _ := (.success, c.output)
  becomesEncoder c := (.success, { c with message := c.output })

namespace Replica

theorem accepts_iff {size blockBytes : Nat} : accepts size blockBytes = true ↔
    1 ≤ size ∧ 1 ≤ blockBytes ∧ 2 ≤ blockCount size blockBytes ∧
      blockCount size blockBytes ≤ 64000 := by
  unfold accepts
  simp only [Bool.and_eq_true, decide_eq_true_eq, and_assoc]

theorem decode_snd (c : Replica) (id : Nat) (data : Bytes) :
    (replicating.decode c id data).2 = c.store id data := by
  show (if _ then _ else _ : WirehairResult × Replica).2 = _
  split <;> rfl

theorem decode_fst (c : Replica) (id : Nat) (data : Bytes) : (replicating.decode c id data).1 =
    if (c.store id data).complete then .success else .needMore := by
  show (if _ then _ else _ : WirehairResult × Replica).1 = _
  split <;> rfl

/-- A symbol of the message is the chunk its id stands for. -/
theorem chunk_of_symbolOf {message data : Bytes} {blockBytes id : Nat} {encoder c : Replica}
    (hencoder : replicating.encoderCreate message blockBytes = some encoder)
    (h : Holds message blockBytes c)
    (hsymbol : replicating.SymbolOf message blockBytes encoder id data) :
    data = Chunks.chunk blockBytes message (id % c.n) := by
  have hencoder : (if accepts message.length blockBytes then
      some { size := message.length, blockBytes := blockBytes, message := message : Replica }
      else none) = some encoder := hencoder
  split at hencoder
  · cases hencoder
    unfold Wirehair.SymbolOf at hsymbol
    by_cases hid : id < Chunks.count blockBytes message.length
    · rw [if_pos hid] at hsymbol
      rw [h.n_eq, Nat.mod_eq_of_lt hid]
      exact hsymbol
    · rw [if_neg hid] at hsymbol
      have hn : blockCount message.length blockBytes = c.n := by
        unfold n
        rw [h.size_eq, h.blockBytes_eq]
      have hdata : Chunks.chunk blockBytes message (id % blockCount message.length blockBytes) =
          data := congrArg Prod.snd hsymbol
      rw [← hdata, hn]
  · cases hencoder

theorem holds_of_fed {message : Bytes} {blockBytes : Nat} {encoder c : replicating.Codec}
    {ids : List Nat} (hencoder : replicating.encoderCreate message blockBytes = some encoder)
    (h : replicating.Fed message blockBytes encoder ids c) : Holds message blockBytes c := by
  induction h with
  | @create c hcreate =>
      have hcreate : (if accepts message.length blockBytes &&
          decide (Chunks.count blockBytes message.length < 2 ^ 16) then
          some { size := message.length, blockBytes := blockBytes : Replica }
          else none) = some c := hcreate
      split at hcreate
      · next hok =>
          cases hcreate
          rw [Bool.and_eq_true, decide_eq_true_eq, accepts_iff] at hok
          have hcut : blockCount message.length blockBytes =
            Chunks.count blockBytes message.length := Nat.mod_eq_of_lt hok.2
          refine ⟨rfl, rfl, hok.2, by omega, ?_⟩
          intro i data hpart
          cases hpart
      · cases hcreate
  | decode _ hsymbol ih =>
      rw [decode_snd]
      exact ih.store (chunk_of_symbolOf hencoder ih hsymbol)
  | becomesEncoder _ hfail => exact absurd rfl hfail

theorem refusesEmpty : replicating.RefusesEmpty := fun _ => rfl

theorem recovers : replicating.Recovers := by
  intro message blockBytes ids id encoder c data hencoder hfed hsymbol hsuccess
  have hholds := holds_of_fed hencoder hfed
  have hstored := hholds.store (chunk_of_symbolOf hencoder hholds hsymbol)
  have hb : 0 < blockBytes := by
    have hpos := hholds.positive
    by_contra hzero
    rw [Nat.eq_zero_of_not_pos hzero] at hpos
    simp [Chunks.count] at hpos
  have hcomplete : (c.store id data).complete = true := by
    by_contra hnot
    rw [decode_fst, if_neg hnot] at hsuccess
    cases hsuccess
  rw [decode_snd]
  show (WirehairResult.success, (c.store id data).output) = _
  rw [hstored.output_eq hb hcomplete]

theorem reencodesDistinct : replicating.ReencodesDistinct := by
  intro message blockBytes encoder decoder ids _ _ _ hencoder hfed hrecover _ id data hencode
  have hholds := holds_of_fed hencoder hfed
  have houtput : decoder.output = message := congrArg Prod.snd hrecover
  have hdata : Chunks.chunk decoder.blockBytes decoder.output (id % decoder.n) = data :=
    congrArg Prod.snd hencode
  rw [houtput, hholds.blockBytes_eq, hholds.n_eq] at hdata
  unfold Wirehair.SymbolOf
  split
  · next hid => rw [← hdata, Nat.mod_eq_of_lt hid]
  · dsimp only at hencoder
    split at hencoder
    · cases hencoder
      show (WirehairResult.success, Chunks.chunk blockBytes message
        (id % blockCount message.length blockBytes)) = _
      rw [blockCount, Nat.mod_eq_of_lt hholds.uncut, hdata]
    · cases hencoder

end Replica

/-- Replication that writes nothing where the buffer is too small, as Wirehair does. -/
@[reducible] def replicatingWithin : Wirehair where
  Codec := Replica
  encoderCreate := replicating.encoderCreate
  decoderCreate := replicating.decoderCreate
  encode c blockId outBytes :=
    let data := Chunks.chunk c.blockBytes c.message (blockId % c.n)
    if data.length ≤ outBytes then (.success, data) else (.invalidInput, [])
  decode := replicating.decode
  recover := replicating.recover
  becomesEncoder := replicating.becomesEncoder

theorem encodesWithin_replicatingWithin : replicatingWithin.EncodesWithin := by
  intro codec blockId outBytes hsuccess
  dsimp only at hsuccess ⊢
  split at hsuccess
  · next hsize => rwa [if_pos hsize]
  · cases hsuccess

end FecRelay
