import FecRelay.Codec.Echo
import FecRelay.Faults

/-!
# Which datagrams are read outside their bytes

Every branch but that of control packets asks for its header through `header<Header>()`,
which checks the size. What a handler reads before and after stays inside the datagram. A
control packet is cast, and read outside if it is cut off before its action or, for a
subscription, before its rate.
-/

namespace FecRelay

open FecRelay.Base

/-! ## Calls that read nothing outside -/

/-- No state makes the call read outside some bytes. -/
abbrev Inside {σ α : Type} (m : Method Fault σ α) : Prop := Method.Avoids .outOfBounds m

theorem enforce_inside (holds : Bool) (expr : String) :
    enforce holds expr ≠ .error .outOfBounds := by
  cases holds <;> simp

theorem popFront_inside {α : Type} : Inside (popFront : Method Fault (List α) α) := by
  intro q
  cases q <;> simp [Method.NeverThrows, popFront]

/-! ### Codecs -/

namespace BlockFec

variable {W : Wirehair}

theorem recovered_inside : Inside (recovered : Method Fault (BlockFec W) Bytes) :=
  Method.Avoids.get.bind fun _ => (Method.Avoids.lift (enforce_inside _ _)).bind fun _ =>
    (Method.Avoids.set _).bind fun _ =>
      (Method.Avoids.lift (enforce_inside _ _)).bind fun _ => .pure _

theorem processSymbol_inside (data : Bytes) (index : Nat) :
    Inside (processSymbol data index : Method Fault (BlockFec W) Bytes) := by
  refine Method.Avoids.get.bind fun fec => (Method.Avoids.set _).bind fun _ => ?_
  split
  · exact .pure []
  · exact recovered_inside
  · exact .throw (by simp)

end BlockFec

namespace Block

variable {W : Wirehair}

theorem ofSize_inside (blockSize : Nat) :
    (ofSize blockSize : Checked (Block W)) ≠ .error .outOfBounds := by
  unfold ofSize BlockFec.ofSize
  cases W.decoderCreate blockSize maxBlockPacketSize <;> simp

theorem processSymbol_inside (payload : Bytes) (ix : Nat) :
    Inside (processSymbol payload ix : Method Fault (Block W) Bool) := by
  refine Method.Avoids.get.bind fun b => .ite (.pure false) ?_
  refine (Method.Avoids.modify _).bind fun _ => ?_
  refine .bind (.zoom (BlockFec.processSymbol_inside _ _)) fun res => .ite ?_ (.pure false)
  exact (Method.Avoids.modify _).bind fun _ => .pure true

end Block

namespace StreamFecEncoder

variable {S : Siamese}

theorem addChunk_inside (data : Bytes) :
    Inside (addChunk data : Method Fault (StreamFecEncoder S) Nat) :=
  Method.Avoids.get.bind fun _ => (Method.Avoids.set _).bind fun _ =>
    (Method.Avoids.lift (enforce_inside _ _)).bind fun _ =>
      (Method.Avoids.modify _).bind fun _ => .pure _

theorem generateFecSymbol_inside :
    Inside (generateFecSymbol : Method Fault (StreamFecEncoder S) (Bytes × Nat)) :=
  Method.Avoids.get.bind fun _ => (Method.Avoids.set _).bind fun _ =>
    (Method.Avoids.lift (enforce_inside _ _)).bind fun _ =>
      (Method.Avoids.modify _).bind fun _ => .pure _

theorem processAck_inside (ackMessage : Bytes) :
    Inside (processAck ackMessage : Method Fault (StreamFecEncoder S) Nat) :=
  Method.Avoids.get.bind fun _ => (Method.Avoids.set _).bind fun _ =>
    (Method.Avoids.lift (enforce_inside _ _)).bind fun _ => .pure _

end StreamFecEncoder

/-! ### Streams -/

namespace ContinuousStreamEncoder

variable {S : Siamese}

theorem getSymbol_inside (ratio : Rat) :
    Inside (getSymbol ratio : Method Fault (ContinuousStreamEncoder S) Symbol) := by
  refine Method.Avoids.get.bind fun e => .ite ?_ ?_
  · exact (Method.Avoids.modify _).bind fun _ => .zoom StreamFecEncoder.generateFecSymbol_inside
  · refine (Method.Avoids.lift (enforce_inside _ _)).bind fun _ => ?_
    refine .bind (.zoom popFront_inside) fun chunk => ?_
    refine .bind (.zoom (StreamFecEncoder.addChunk_inside chunk)) fun index => ?_
    exact (Method.Avoids.modify _).bind fun _ => .pure _

theorem drainSymbols_inside (ratio : Rat) : ∀ rounds,
    Inside (drainSymbols ratio rounds : Method Fault (ContinuousStreamEncoder S) _) := by
  intro rounds
  induction rounds with
  | zero => exact .throw (by simp)
  | succ rounds ih =>
      refine Method.Avoids.get.bind fun e => .ite ?_ (.pure [])
      exact (getSymbol_inside ratio).bind fun _ => ih.bind fun _ => .pure _

end ContinuousStreamEncoder

/-! ## Handlers -/

namespace Node

variable {W : Wirehair} {S : Siamese} {ε : Type} [LinearOrder ε]

theorem emplaceBlock_inside (key : UInt32 × UInt32) (blockSize : UInt32) :
    Inside (emplaceBlock key blockSize : Method Fault (Node W S ε) (Block W)) := by
  refine Method.Avoids.get.bind fun n => ?_
  split
  · exact .pure _
  · exact (Method.Avoids.lift (Block.ofSize_inside _)).bind fun block =>
      (Method.Avoids.modify _).bind fun _ => .pure block

theorem relayOn_inside (around : Surroundings ε) (channelId : UInt32) :
    Inside (relayOn around channelId : Method Fault (Node W S ε) Unit) := by
  refine .bind (.zoom ContinuousStream.relayChunks_avoids) fun _ => ?_
  refine .bind (.zoom (.zoom (ContinuousStreamEncoder.drainSymbols_inside _ _))) fun _ => ?_
  exact .ite (queueToAll_avoids isLocal_outOfBounds _ _ _) (.pure ())

theorem handleStream_inside (around : Surroundings ε) (data : Bytes) (peer : ε) :
    Inside (handleStream around data peer : Method Fault (Node W S ε) Unit) := by
  rw [handleStream_eq]
  refine .lift_bind (Packet.header_avoids isLocal_outOfBounds _ data) fun h hheader => ?_
  refine (nextIsLost_avoids isLocal_outOfBounds).bind fun lost => .ite (.pure ()) ?_
  refine .lift_bind (Packet.payload_avoids hheader) fun payload _ => ?_
  refine .bind (.zoom (.zoom (ContinuousStreamDecoder.processSymbol_avoids
    isLocal_outOfBounds _ _ _))) fun _ => ?_
  refine .bind (.zoom (.zoom (.zoom
    (StreamFecDecoder.generateAck_avoids isLocal_outOfBounds)))) fun ack => ?_
  refine .ite ?_ (relayOn_inside around h.channelId)
  exact (Method.Avoids.modify _).bind fun _ => relayOn_inside around h.channelId

theorem handleStreamAck_inside (data : Bytes) :
    Inside (handleStreamAck data : Method Fault (Node W S ε) Unit) := by
  refine .lift_bind (Packet.header_avoids isLocal_outOfBounds _ data) fun h hheader => ?_
  refine .lift_bind (Packet.payload_avoids hheader) fun payload _ => .zoom (.zoom ?_)
  exact .bind (.zoom (StreamFecEncoder.processAck_inside payload)) fun _ => .modify _

/-! ### Blocks -/

/-- The read is not one of the datagram: header and payload of a block packet have been
read, and the block that the packet completed has less data than its generator looks for. -/
def MissesBlockData (data : Bytes) (n : Node W S ε) : Prop :=
  ∃ h payload block decoded block',
    Packet.header BlockPacketHeader data = .ok h ∧
    Packet.payload BlockPacketHeader data = .ok payload ∧ n.BlockFor h block ∧
    Block.processSymbol payload h.packetIndex.toNat block = .ok decoded block' ∧
    generate h decoded block' = .error .outOfBounds

theorem handleBlock_inside {data : Bytes} {n : Node W S ε} (hdata : ¬MissesBlockData data n)
    (around : Surroundings ε) : Method.NeverThrows .outOfBounds (handleBlock around data) n := by
  refine .bind (Method.Avoids.lift (Packet.header_avoids isLocal_outOfBounds _ data) n) fun h n₁ hread => ?_
  obtain ⟨hheader, rfl⟩ := Method.lift_ok_iff.mp hread
  refine .bind (nextIsLost_avoids isLocal_outOfBounds n) fun lost n₁ hlost => ?_
  obtain ⟨-, -, rfl⟩ := nextIsLost_ok_iff.mp hlost
  cases lost with
  | true => exact Method.Avoids.pure () _
  | false =>
      rw [if_neg Bool.false_ne_true]
      refine .bind (emplaceBlock_inside _ _ n.counted) fun block n₂ hemplace => ?_
      obtain ⟨hblock, -⟩ := emplaceBlock_ok hemplace
      refine .bind (Method.Avoids.lift (Packet.payload_avoids hheader) n₂) fun payload n₃ hread => ?_
      obtain ⟨hpayload, rfl⟩ := Method.lift_ok_iff.mp hread
      refine .bind ?_ fun result n₄ hcall => ?_
      · exact Method.Avoids.zoom ((Block.processSymbol_inside _ _).bind fun _ =>
          Method.Avoids.get.bind fun _ => .pure _) n₂
      · -- the block that was decoded is passed on
        unfold onBlock at hcall
        obtain ⟨block', hcall, -⟩ := Method.zoom_ok_iff.mp hcall
        obtain ⟨decoded, block₁, hprocess, hresult⟩ := Method.bind_ok_iff.mp hcall
        cases hresult
        refine .bind (Method.Avoids.lift ?_ n₄) fun generated n₅ _ => ?_
        · intro hgenerate
          exact hdata ⟨h, payload, block, decoded, block', hheader, hpayload, hblock, hprocess,
            hgenerate⟩
        · exact queueToAll_avoids isLocal_outOfBounds _ _ _ n₅

/-! ### Control packets -/

/-- A control packet that ends before its action, or a subscription that ends before
its rate. -/
def CutOff (data : Bytes) : Prop :=
  sizeOfHeader PacketHeader ≤ data.length ∧ typeOf data = some .control ∧
    (data.length < 12 ∨ word data 2 = actionSubscribe ∧
      data.length < sizeOfHeader ControlPacketHeader)

instance (data : Bytes) : Decidable (CutOff data) := inferInstanceAs (Decidable (_ ∧ _ ∧ _))

theorem readWord_eq_error {data : Bytes} {i : Nat} (h : data.length < 4 * (i + 1)) :
    readWord data i = .error .outOfBounds := if_neg (by omega)

theorem readWord_eq_ok {data : Bytes} {i : Nat} (h : 4 * (i + 1) ≤ data.length) :
    readWord data i = .ok (word data i) := if_pos h

theorem handleControl_inside_iff (data : Bytes) (peer : ε) (n : Node W S ε) :
    Method.NeverThrows .outOfBounds (handleControl data peer) n ↔
      12 ≤ data.length ∧ (word data 2 = actionSubscribe → 20 ≤ data.length) := by
  unfold Method.NeverThrows handleControl
  by_cases haction : data.length < 12
  · rw [readWord_eq_error haction, Method.bind_of_error (Method.lift_error _ n)]
    simp
    omega
  · rw [readWord_eq_ok (not_lt.mp haction), Method.bind_of_ok (Method.lift_ok _ n)]
    by_cases hsubscribe : word data 2 = actionSubscribe
    · rw [if_pos hsubscribe]
      by_cases hchannel : data.length < 16
      · rw [readWord_eq_error hchannel, Method.bind_of_error (Method.lift_error _ n)]
        simp [hsubscribe]
        omega
      · rw [readWord_eq_ok (not_lt.mp hchannel), Method.bind_of_ok (Method.lift_ok _ n)]
        by_cases hkbps : data.length < 20
        · rw [readWord_eq_error hkbps, Method.bind_of_error (Method.lift_error _ n)]
          simp [hsubscribe]
          omega
        · rw [readWord_eq_ok (not_lt.mp hkbps), Method.bind_of_ok (Method.lift_ok _ n)]
          simp
          omega
    · rw [if_neg hsubscribe]
      simp [hsubscribe]
      omega

/-! ## Datagrams -/

/-- Whatever the node and the codecs, the handler reads nothing outside the datagram. -/
def ReadsInside (data : Bytes) : Prop :=
  ∀ (W : Wirehair) (S : Siamese) (ε : Type) (_ : LinearOrder ε) (around : Surroundings ε)
    (peer : ε) (n : Node W S ε),
    Method.thrown (handlePacket around data peer n) = some .outOfBounds → MissesBlockData data n

/-- A datagram that is too short, or of no type, is refused. -/
theorem handlePacket_refused {data : Bytes}
    (h : data.length < sizeOfHeader PacketHeader ∨ typeOf data = none)
    (around : Surroundings ε) (peer : ε) (n : Node W S ε) :
    Method.NeverThrows .outOfBounds (handlePacket around data peer) n := by
  refine Method.Avoids.lift_bind (Packet.header_avoids isLocal_outOfBounds _ data) (fun hd hheader => ?_) n
  obtain ⟨hsize, hview⟩ := Packet.header_ok_iff.mp hheader
  have hcode : PacketType.ofCode hd.packetType = none := by
    rcases h with h | h
    · exact absurd hsize (not_le.mpr h)
    · unfold typeOf at h
      rwa [hview] at h
  simp only [hcode]
  exact .throw (by simp)

theorem readsInside_of_not_cutOff {data : Bytes} (h : ¬CutOff data) : ReadsInside data := by
  intro W S ε _ around peer n
  by_contra hread
  obtain ⟨hthrown, hdata⟩ := Classical.not_imp.mp hread
  revert hthrown
  show Method.NeverThrows .outOfBounds (handlePacket around data peer) n
  by_cases hsize : sizeOfHeader PacketHeader ≤ data.length
  · cases htype : typeOf data with
    | none => exact handlePacket_refused (Or.inr htype) around peer n
    | some t =>
        unfold Method.NeverThrows
        rw [handlePacket_of_type hsize htype]
        cases t with
        | control =>
            apply (handleControl_inside_iff data peer n).mpr
            by_contra hshort
            apply h
            refine ⟨hsize, htype, ?_⟩
            show data.length < 12 ∨ word data 2 = actionSubscribe ∧ data.length < 20
            grind
        | block => exact handleBlock_inside hdata around
        | stream => exact handleStream_inside around data peer n
        | streamAck => exact handleStreamAck_inside data n
  · exact handlePacket_refused (Or.inl (not_le.mp hsize)) around peer n

/-- A control packet that is cut off has no block. -/
theorem CutOff.not_missesBlockData {data : Bytes} (h : CutOff data) (n : Node W S ε) :
    ¬MissesBlockData data n := by
  rintro ⟨hd, payload, block, decoded, block', hheader, -⟩
  obtain ⟨hsize, -⟩ := Packet.header_ok_iff.mp hheader
  have hblock : 24 ≤ data.length := hsize
  obtain ⟨-, -, hshort⟩ := h
  have hcontrol : data.length < 20 := by
    rcases hshort with hshort | ⟨-, hshort⟩
    · omega
    · exact hshort
  omega

theorem CutOff.not_readsInside {data : Bytes} (hcut : CutOff data) : ¬ReadsInside data := by
  intro h
  let n : Node replicating echoing Nat := {}
  let around : Surroundings Nat := { rounds := 0, clock := fun _ _ => 0 }
  have hinside : Method.NeverThrows .outOfBounds (handlePacket around data 0) n := by
    intro hthrown
    exact hcut.not_missesBlockData n (h _ _ _ _ around 0 n hthrown)
  obtain ⟨hsize, htype, hshort⟩ := hcut
  unfold Method.NeverThrows at hinside
  rw [handlePacket_of_type hsize htype] at hinside
  obtain ⟨haction, hkbps⟩ := (handleControl_inside_iff data 0 n).mp hinside
  rcases hshort with hshort | ⟨hsubscribe, hshort⟩
  · omega
  · exact absurd (hkbps hsubscribe) (not_le.mpr hshort)

/-- **Which datagrams are read inside their bytes.** All but control packets that are
cut off. -/
theorem readsInside_iff (data : Bytes) : ReadsInside data ↔ ¬CutOff data := by
  constructor
  · intro h hcut
    exact hcut.not_readsInside h
  · exact readsInside_of_not_cutOff

/-- A control packet that ends behind the common header is read outside. -/
theorem cut_off_control_reads_outside :
    ¬ReadsInside (storeWords [0, PacketType.control.code]) := by
  have hcut : CutOff (storeWords [0, PacketType.control.code]) := by decide
  exact hcut.not_readsInside

end Node

end FecRelay
