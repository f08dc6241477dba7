import FecRelay.Steps

/-!
# Where two faults come from

A read outside of some bytes and a chunk that the stream codec does not take are each
thrown in few places. Every other call avoids both, whatever state it finds, so the
place is known from the exception.
-/

namespace FecRelay

open FecRelay.Base

/-- `ENFORCE` of `add_chunk` -/
def chunkRefused : Fault := .enforce "siamese_encoder_add(m_encoder.get(), &packet) == 0"

/-- One of the faults with few places. -/
def Fault.IsLocal (e : Fault) : Prop := e = .outOfBounds ∨ e = chunkRefused

theorem isLocal_outOfBounds : Fault.IsLocal .outOfBounds := Or.inl rfl

theorem isLocal_chunkRefused : chunkRefused.IsLocal := Or.inr rfl

section avoids

variable {e : Fault} (he : e.IsLocal)
include he

theorem enforce_avoids (holds : Bool) {expr : String} (hexpr : Fault.enforce expr ≠ chunkRefused) :
    enforce holds expr ≠ .error e := by
  rcases he with rfl | rfl
  · cases holds <;> simp
  · cases holds <;> simp [hexpr]

theorem divide_avoids (x y : Int) : divide x y ≠ .error e := by
  unfold divide
  rcases he with rfl | rfl <;> split <;> simp [chunkRefused]

theorem runtimeError_ne (what : String) : Fault.runtimeError what ≠ e := by
  rcases he with rfl | rfl <;> simp [chunkRefused]

theorem enforce0_ne (expr : String) (res : Nat) : Fault.enforce0 expr res ≠ e := by
  rcases he with rfl | rfl <;> simp [chunkRefused]

theorem diverges_ne : Fault.diverges ≠ e := by
  rcases he with rfl | rfl <;> simp [chunkRefused]

theorem signedOverflow_ne : Fault.signedOverflow ≠ e := by
  rcases he with rfl | rfl <;> simp [chunkRefused]

theorem MovablePriorityQueue.popValue_avoids {α : Type} [BEq α] {comp : α → α → Bool} :
    Method.Avoids e (MovablePriorityQueue.popValue :
      Method Fault (MovablePriorityQueue α comp) α) := by
  refine Method.Avoids.get.bind fun q => ?_
  cases q.top with
  | none => exact .throw (runtimeError_ne he _)
  | some value => exact (Method.Avoids.set _).bind fun _ => .pure value

/-! ## Shaped queues -/

theorem BandwidthShaper.whenCanSend_avoids (s : BandwidthShaper) (bytes : Int) :
    s.whenCanSend bytes ≠ .error e := by
  have hdivide := divide_avoids he 8000000 s.kbps
  unfold whenCanSend timePerByte
  cases hcase : divide 8000000 (s.kbps : Int) with
  | ok t => simp
  | error fault =>
      rw [hcase] at hdivide
      intro h
      cases h
      exact hdivide rfl

theorem BandwidthShaper.didSend_avoids (tp bytes : Int) :
    Method.Avoids e (BandwidthShaper.didSend tp bytes) := by
  refine .bind (Method.Avoids.get.bind fun s => ?_) fun _ => .modify _
  exact (Method.Avoids.lift (enforce_avoids he _ (by simp [chunkRefused]))).bind fun _ =>
    (Method.Avoids.lift (divide_avoids he _ _)).bind fun _ =>
      (Method.Avoids.lift (divide_avoids he _ _)).bind fun _ => .set _

theorem ShapedPacketQueue.whenCanPop_avoids (q : ShapedPacketQueue) :
    q.whenCanPop ≠ .error e := by
  unfold whenCanPop
  cases q.packets.top with
  | none => simp
  | some packet =>
      have hsend := q.shaper.whenCanSend_avoids he packet.length
      dsimp only
      cases hcase : q.shaper.whenCanSend packet.length with
      | ok t => simp
      | error fault =>
          rw [hcase] at hsend
          intro h
          cases h
          exact hsend rfl

omit he in
theorem ShapedPacketQueue.push_avoids (packet : Bytes) :
    Method.Avoids e (ShapedPacketQueue.push packet) :=
  fun q => by simp [Method.NeverThrows]

theorem ShapedPacketQueue.popValue_avoids (now : Int) :
    Method.Avoids e (ShapedPacketQueue.popValue now) :=
  .bind (.zoom (MovablePriorityQueue.popValue_avoids he)) fun packet =>
    .bind (.zoom (BandwidthShaper.didSend_avoids he now packet.length)) fun _ => .pure packet

theorem AsioReceiver.sendLoop_avoids (now : Int) : ∀ rounds,
    Method.Avoids e (AsioReceiver.sendLoop now rounds) := by
  intro rounds
  induction rounds with
  | zero => exact .throw (diverges_ne he)
  | succ rounds ih =>
      refine Method.Avoids.get.bind fun r => ?_
      refine (Method.Avoids.lift (r.queue.whenCanPop_avoids he)).bind fun next =>
        .ite ?_ (.pure next)
      exact .bind (.zoom (ShapedPacketQueue.popValue_avoids he now)) fun packet =>
        (Method.Avoids.modify _).bind fun _ => ih

theorem AsioReceiver.maybeSend_avoids (now : Int) :
    Method.Avoids e (AsioReceiver.maybeSend now) := by
  refine Method.Avoids.get.bind fun r => (AsioReceiver.sendLoop_avoids he now _).bind fun next => ?_
  cases next with
  | farFuture => exact .pure ()
  | due t => exact .modify _

theorem AsioReceiver.queuePacket_avoids (now : Int) (packet : Bytes) :
    Method.Avoids e (AsioReceiver.queuePacket now packet) :=
  Method.Avoids.get.bind fun _ => (Method.Avoids.modify _).bind fun _ =>
    .bind (.zoom (ShapedPacketQueue.push_avoids packet)) fun _ =>
      .ite (AsioReceiver.maybeSend_avoids he now) (.pure ())

/-! ## Stream decoders -/

section decoder

variable {S : Siamese}

theorem StreamFecDecoder.processSymbol_avoids (data : Bytes) (index : Nat) :
    Method.Avoids e (processSymbol data index : Method Fault (StreamFecDecoder S) Unit) :=
  Method.Avoids.get.bind fun _ => .ite
    ((Method.Avoids.set _).bind fun _ => .lift (enforce_avoids he _ (by simp [chunkRefused])))
    ((Method.Avoids.set _).bind fun _ => .lift (enforce_avoids he _ (by simp [chunkRefused])))

theorem StreamFecDecoder.getNewChunks_avoids :
    Method.Avoids e (getNewChunks : Method Fault (StreamFecDecoder S) (List (Bytes × Nat))) :=
  Method.Avoids.get.bind fun _ => (Method.Avoids.set _).bind fun _ =>
    .ite (.pure _) (.throw (enforce0_ne he _ _))

theorem StreamFecDecoder.hasData_avoids :
    Method.Avoids e (hasData : Method Fault (StreamFecDecoder S) Bool) := by
  refine Method.Avoids.get.bind fun _ => (Method.Avoids.set _).bind fun _ => ?_
  split
  · exact .pure true
  · exact .pure false
  · exact .throw (runtimeError_ne he _)

theorem StreamFecDecoder.generateAck_avoids :
    Method.Avoids e (generateAck : Method Fault (StreamFecDecoder S) Bytes) :=
  Method.Avoids.get.bind fun _ => (Method.Avoids.set _).bind fun _ =>
    (Method.Avoids.lift (enforce_avoids he _ (by simp [chunkRefused]))).bind fun _ => .pure _

omit he in
theorem ContinuousStreamDecoder.processOriginalChunk_avoids (data : Bytes) (index : Nat) :
    Method.Avoids e (processOriginalChunk data index :
      Method Fault (ContinuousStreamDecoder S) Unit) :=
  (Method.Avoids.modify _).bind fun _ => Method.Avoids.get.bind fun _ =>
    .ite (.pure ()) (.zoom (.modify _))

theorem ContinuousStreamDecoder.decodeLoop_avoids : ∀ rounds,
    Method.Avoids e (decodeLoop rounds : Method Fault (ContinuousStreamDecoder S) Unit) := by
  intro rounds
  induction rounds with
  | zero => exact .throw (diverges_ne he)
  | succ rounds ih =>
      refine .bind (.zoom (StreamFecDecoder.hasData_avoids he)) fun ready => .ite ?_ (.pure ())
      refine .bind (.zoom (StreamFecDecoder.getNewChunks_avoids he)) fun chunks => ?_
      exact .bind (.forEach (fun chunk => processOriginalChunk_avoids chunk.1 chunk.2) chunks)
        fun _ => ih

theorem ContinuousStreamDecoder.processSymbol_avoids (rounds : Nat) (data : Bytes) (index : Nat) :
    Method.Avoids e (processSymbol rounds data index :
      Method Fault (ContinuousStreamDecoder S) Unit) := by
  refine .bind (.zoom (StreamFecDecoder.processSymbol_avoids he data index)) fun _ => ?_
  refine .ite ?_ (decodeLoop_avoids he rounds)
  exact (processOriginalChunk_avoids data index).bind fun _ => decodeLoop_avoids he rounds

omit he in
theorem ContinuousStream.relayChunks_avoids :
    Method.Avoids e (relayChunks : Method Fault (ContinuousStream S) Unit) := by
  intro s
  obtain ⟨s', hrelay, -⟩ := relayChunks_spec (I := fun _ => True)
    (fun _ _ _ _ _ => trivial) (s := s) trivial
  unfold Method.NeverThrows
  rw [hrelay]
  simp

end decoder

/-! ## Nodes -/

section node

variable {W : Wirehair} {S : Siamese} {ε : Type} [LinearOrder ε]

theorem Packet.header_avoids (H : Type) [PacketLayout H] (data : Bytes) :
    Packet.header H data ≠ .error e := by
  have hexpr : Fault.enforce "m_data.size() >= sizeof(Header)" ≠ chunkRefused := by
    simp [chunkRefused]
  have henforce := enforce_avoids he (decide (sizeOfHeader H ≤ data.length)) hexpr
  unfold Packet.header enforce at *
  split at henforce
  · next hsize => simp [hsize]
  · next hsize =>
      simp only [hsize]
      intro h
      cases h
      exact henforce rfl

omit he in
/-- A payload behind a header that was read. -/
theorem Packet.payload_avoids {H : Type} [PacketLayout H] {data : Bytes} {h : H}
    (hheader : Packet.header H data = .ok h) : Packet.payload H data ≠ .error e := by
  obtain ⟨hsize, -⟩ := Packet.header_ok_iff.mp hheader
  rw [Packet.payload_ok_iff.mpr ⟨hsize, rfl⟩]
  simp

theorem Node.nextIsLost_avoids : Method.Avoids e (nextIsLost : Method Fault (Node W S ε) Bool) := by
  refine Method.Avoids.get.bind fun n => ?_
  split
  · exact Method.Avoids.bind (.throw (signedOverflow_ne he)) fun _ =>
      (Method.Avoids.set _).bind fun _ => .pure _
  · exact (Method.Avoids.set _).bind fun _ => .pure _

theorem Node.queueToAll_avoids (around : Surroundings ε) (channelId : UInt32)
    (packets : List Bytes) :
    Method.Avoids e (queueToAll around channelId packets : Method Fault (Node W S ε) Unit) := by
  apply Method.Avoids.zoom
  apply OrderedMap.forValues_avoids
  intro peer
  apply Method.Avoids.forEach
  intro x
  apply AsioReceiver.queuePacket_avoids he

end node

end avoids

end FecRelay
