import FecRelay.Codec.Wirehair

/-!
# A systematic block codec

What an encoder writes for the ids of the chunks are the chunks, the last of them short, and
a decoder that became an encoder writes the chunks of what it recovered. `replicatingStrict`
obeys this whatever it is given: it rejects a block of the wrong size, as Wirehair does.
-/

namespace FecRelay

open FecRelay.Base

namespace Wirehair

variable (W : Wirehair)

/-- `wirehair_encode` writes the chunks of `message`, and something for every other id. -/
structure Serves (message : Bytes) (blockBytes : Nat) (codec : W.Codec) : Prop where
  systematic : ∀ id < Chunks.count blockBytes message.length,
    W.encode codec id blockBytes = (.success, Chunks.chunk blockBytes message id)
  total : ∀ id, (W.encode codec id blockBytes).1 = .success

/-- A decoder made for `size` bytes that was given blocks among `symbols`. -/
inductive Decoding (symbols : Nat → Bytes → Prop) (size blockBytes : Nat) : W.Codec → Prop
  | create {codec : W.Codec} : W.decoderCreate size blockBytes = some codec →
      Decoding symbols size blockBytes codec
  | decode {codec : W.Codec} {id : Nat} {data : Bytes} : Decoding symbols size blockBytes codec →
      symbols id data → Decoding symbols size blockBytes (W.decode codec id data).2
  | becomesEncoder {codec : W.Codec} : Decoding symbols size blockBytes codec →
      (W.becomesEncoder codec).1 ≠ .success →
      Decoding symbols size blockBytes (W.becomesEncoder codec).2

/-- An encoder, and a decoder given blocks among `symbols` once it became one, write the
chunks of their message. -/
structure Systematic (symbols : Nat → Bytes → Prop) : Prop where
  encoder : ∀ message blockBytes codec, W.encoderCreate message blockBytes = some codec →
    W.Serves message blockBytes codec
  decoder : ∀ size blockBytes codec block, W.Decoding symbols size blockBytes codec →
    W.recover codec size = (.success, block) → (W.becomesEncoder codec).1 = .success →
    block.length = size ∧ W.Serves block blockBytes (W.becomesEncoder codec).2

/-- The sizes that are accepted are from 1 byte to 64000 blocks. -/
structure Limited : Prop where
  encoder : ∀ message blockBytes codec, W.encoderCreate message blockBytes = some codec →
    1 ≤ message.length ∧ Chunks.count blockBytes message.length ≤ 64000
  decoder : ∀ size blockBytes codec, W.decoderCreate size blockBytes = some codec →
    1 ≤ size ∧ Chunks.count blockBytes size ≤ 64000

end Wirehair

/-! ## Replication that rejects -/

namespace Replica

/-- The length of part `i`. -/
def partSize (c : Replica) (i : Nat) : Nat := min ((i + 1) * c.blockBytes) c.size - i * c.blockBytes

end Replica

/-- Replication that rejects a block of the wrong size, and a message whose block count is cut. -/
@[reducible] def replicatingStrict : Wirehair where
  Codec := Replica
  encoderCreate message blockBytes :=
    if Chunks.count blockBytes message.length < 2 ^ 16 then
      replicating.encoderCreate message blockBytes
    else none
  decoderCreate := replicating.decoderCreate
  encode := replicating.encode
  decode c blockId data :=
    if data.length = c.partSize (blockId % c.n) then replicating.decode c blockId data
    else (.invalidInput, c)
  recover c _ := if c.complete then (.success, c.output) else (.error, [])
  becomesEncoder := replicating.becomesEncoder

namespace Replica

@[simp] theorem n_store (c : Replica) (id : Nat) (data : Bytes) : (c.store id data).n = c.n := rfl

theorem parts_store (c : Replica) (id : Nat) (data : Bytes) (i : Nat) :
    (c.store id data).parts i = if i = id % c.n then some data else c.parts i :=
  Function.update_apply ..

theorem decode_of_accepted {c : Replica} {id : Nat} {data : Bytes}
    (h : data.length = c.partSize (id % c.n)) :
    replicatingStrict.decode c id data = replicating.decode c id data := if_pos h

theorem decode_of_rejected {c : Replica} {id : Nat} {data : Bytes}
    (h : data.length ≠ c.partSize (id % c.n)) :
    replicatingStrict.decode c id data = (.invalidInput, c) := if_neg h

/-- The decoder's size is acceptable, and its parts are as long as the chunks. -/
structure Sized (size blockBytes : Nat) (c : Replica) : Prop where
  size_eq : c.size = size
  blockBytes_eq : c.blockBytes = blockBytes
  accepted : accepts size blockBytes = true
  uncut : Chunks.count blockBytes size < 2 ^ 16
  parts : ∀ i part, c.parts i = some part → part.length = c.partSize i

theorem Sized.n_eq {size blockBytes : Nat} {c : Replica} (h : Sized size blockBytes c) :
    c.n = Chunks.count blockBytes size := by
  unfold n blockCount
  rw [h.size_eq, h.blockBytes_eq]
  exact Nat.mod_eq_of_lt h.uncut

theorem Sized.store {size blockBytes : Nat} {c : Replica} (h : Sized size blockBytes c) {id : Nat}
    {data : Bytes} (hdata : data.length = c.partSize (id % c.n)) :
    Sized size blockBytes (c.store id data) := by
  refine ⟨h.size_eq, h.blockBytes_eq, h.accepted, h.uncut, ?_⟩
  intro i part hpart
  show part.length = c.partSize i
  rw [parts_store] at hpart
  by_cases hi : i = id % c.n
  · rw [if_pos hi] at hpart
    cases hpart
    rw [hi, hdata]
  · rw [if_neg hi] at hpart
    exact h.parts i part hpart

theorem sized_of_decoding {symbols : Nat → Bytes → Prop} {size blockBytes : Nat}
    {c : replicatingStrict.Codec} (h : replicatingStrict.Decoding symbols size blockBytes c) :
    Sized size blockBytes c := by
  induction h with
  | @create c hcreate =>
      have hcreate : (if accepts size blockBytes &&
          decide (Chunks.count blockBytes size < 2 ^ 16) then
          some { size := size, blockBytes := blockBytes : Replica } else none) = some c := hcreate
      split at hcreate
      · next hok =>
          cases hcreate
          rw [Bool.and_eq_true, decide_eq_true_eq] at hok
          exact ⟨rfl, rfl, hok.1, hok.2, nofun⟩
      · cases hcreate
  | @decode c id data _ _ ih =>
      by_cases hdata : data.length = c.partSize (id % c.n)
      · have hstored : (replicatingStrict.decode c id data).2 = c.store id data := by
          rw [decode_of_accepted hdata, decode_snd]
        rw [hstored]
        exact ih.store hdata
      · rw [decode_of_rejected hdata]
        exact ih
  | becomesEncoder _ hfail => exact absurd rfl hfail

/-- What a complete decoder puts together has the size it was made for. -/
theorem Sized.length_output {size blockBytes : Nat} {c : Replica} (h : Sized size blockBytes c)
    (hcomplete : c.complete = true) : c.output.length = size := by
  have hb : 0 < blockBytes := (accepts_iff.mp h.accepted).2.1
  unfold output
  rw [h.n_eq]
  refine Chunks.length_flatMap_of_length hb fun i hi => ?_
  have hi : i ∈ List.range c.n := by simpa [h.n_eq] using hi
  obtain ⟨part, hpart⟩ := Option.isSome_iff_exists.mp (List.all_eq_true.mp hcomplete i hi)
  rw [hpart, Option.getD_some, h.parts i part hpart, partSize, h.size_eq, h.blockBytes_eq]

theorem serves {message : Bytes} {blockBytes : Nat} {c : Replica} (hmessage : c.message = message)
    (hbytes : c.blockBytes = blockBytes)
    (hn : c.n = Chunks.count blockBytes message.length) :
    replicatingStrict.Serves message blockBytes c where
  systematic id hid := by
    show (WirehairResult.success, Chunks.chunk c.blockBytes c.message (id % c.n)) = _
    rw [hmessage, hbytes, hn, Nat.mod_eq_of_lt hid]
  total _ := rfl

theorem systematic (symbols : Nat → Bytes → Prop) : replicatingStrict.Systematic symbols where
  encoder message blockBytes codec hcreate := by
    dsimp only at hcreate
    split at hcreate
    · next huncut =>
        split at hcreate
        · cases hcreate
          exact serves rfl rfl (Nat.mod_eq_of_lt huncut)
        · cases hcreate
    · cases hcreate
  decoder size blockBytes c block hdecoding hrecover _ := by
    have hsized := sized_of_decoding hdecoding
    dsimp only at hrecover
    split at hrecover
    · next hcomplete =>
        cases hrecover
        have hlength := hsized.length_output hcomplete
        refine ⟨hlength, serves rfl hsized.blockBytes_eq ?_⟩
        rw [hlength]
        exact hsized.n_eq
    · cases hrecover

theorem limited : replicatingStrict.Limited where
  encoder message blockBytes codec hcreate := by
    dsimp only at hcreate
    split at hcreate
    · next huncut =>
        split at hcreate
        · next haccepts =>
            obtain ⟨hsize, -, -, hcount⟩ := accepts_iff.mp haccepts
            rw [blockCount, Nat.mod_eq_of_lt huncut] at hcount
            exact ⟨hsize, hcount⟩
        · cases hcreate
    · cases hcreate
  decoder size blockBytes codec hcreate := by
    dsimp only at hcreate
    split at hcreate
    · next hok =>
        rw [Bool.and_eq_true, decide_eq_true_eq, accepts_iff] at hok
        obtain ⟨⟨hsize, -, -, hcount⟩, huncut⟩ := hok
        rw [blockCount, Nat.mod_eq_of_lt huncut] at hcount
        exact ⟨hsize, hcount⟩
    · cases hcreate

/-! ### Two parts -/

/-- One of two parts does not complete a decoder that had none. -/
theorem complete_first {c : Replica} (hn : c.n = 2) (hparts : c.parts 1 = none) (first : Bytes) :
    (c.store 0 first).complete = false := by
  simp [complete, parts_store, hn, hparts, List.range_succ]

theorem complete_second {c : Replica} (hn : c.n = 2) (first second : Bytes) :
    ((c.store 0 first).store 1 second).complete = true := by
  simp [complete, parts_store, hn, List.range_succ]

theorem output_second {c : Replica} (hn : c.n = 2) (first second : Bytes) :
    ((c.store 0 first).store 1 second).output = first ++ second := by
  simp [output, parts_store, hn, List.range_succ]

end Replica

end FecRelay
