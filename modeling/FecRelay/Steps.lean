import FecRelay.Net

/-!
# What a step of a node does

A handler that returned did one of a few things. `step_cases` says which, with what
was read, called and queued on the way, and the theorems about nodes start from it.
-/

namespace FecRelay.Node

open FecRelay.Base

variable {W : Wirehair} {S : Siamese} {ε : Type} [LinearOrder ε]

/-! ## What a handler that returns did -/

theorem queuePackets_ok {clock : Nat → Int} {packets : List Bytes} {r r' : AsioReceiver}
    (h : queuePackets clock packets r = .ok () r') : r'.queued = r.queued ++ packets := by
  have hloop : ∀ (xs : List (Bytes × Nat)) (r r' : AsioReceiver),
      Method.forEach (fun x => AsioReceiver.queuePacket (clock x.2) x.1) xs r = .ok () r' →
      r'.queued = r.queued ++ xs.map (·.1) := by
    intro xs
    induction xs with
    | nil =>
        intro r r' h
        obtain ⟨-, rfl⟩ := Method.pure_ok_iff.mp h
        exact (List.append_nil _).symm
    | cons x xs ih =>
        intro r r' h
        obtain ⟨_, r₁, hx, hrest⟩ := Method.bind_ok_iff.mp h
        have hx : AsioReceiver.queuePacket (clock x.2) x.1 r = .ok () r₁ := hx
        have hqueued : r₁.queued = r.queued ++ [x.1] := by
          rw [← AsioReceiver.queuePacket_queued (clock x.2) x.1 r, hx]
          rfl
        rw [ih r₁ r' hrest, hqueued, List.append_assoc]
        rfl
  have hqueued := hloop packets.zipIdx r r' h
  rw [List.zipIdx_map_fst] at hqueued
  exact hqueued

/-- Queueing packets to a channel changes nothing but the receivers of the channel. -/
theorem queueToAll_ok {around : Surroundings ε} {channelId : UInt32} {packets : List Bytes}
    {n n' : Node W S ε} (h : queueToAll around channelId packets n = .ok () n') :
    ∃ receivers, n' = { n with
        subscriptions := Function.update n.subscriptions channelId receivers } ∧
      ∀ peer, OrderedMap.Visited (fun peer => queuePackets (around.clock peer) packets) peer
        (n.receiver channelId peer) (receivers.find? peer) := by
  unfold queueToAll onSubscriptions at h
  obtain ⟨receivers, hloop, rfl⟩ := Method.zoom_ok_iff.mp h
  exact ⟨receivers, rfl, OrderedMap.visited_of_forValues hloop⟩

/-- The node once a packet was counted. -/
def counted (n : Node W S ε) : Node W S ε := { n with packetSeq := n.packetSeq + 1 }

theorem nextIsLost_ok_iff {n n' : Node W S ε} {lost : Bool} :
    nextIsLost n = .ok lost n' ↔ n.packetSeq ≠ intMax ∧
      lost = decide (n.packetSeq % loseEvery = 0) ∧ n' = n.counted := by
  rw [nextIsLost, Method.bind_of_ok (Method.get_apply n)]
  by_cases hmax : n.packetSeq = intMax
  · rw [if_pos hmax]
    show EStateM.Result.error _ _ = _ ↔ _
    simp [hmax]
  · rw [if_neg hmax]
    show EStateM.Result.ok _ _ = _ ↔ _
    simp [hmax, counted, eq_comm]

/-- A packet is counted, and lost or handled. -/
theorem lossy_ok_iff {n n' : Node W S ε} {m : Method Fault (Node W S ε) Unit} :
    (nextIsLost >>= fun lost => if lost then pure () else m) n = .ok () n' ↔
      n.packetSeq ≠ intMax ∧ (n.packetSeq % loseEvery = 0 ∧ n' = n.counted ∨
        n.packetSeq % loseEvery ≠ 0 ∧ m n.counted = .ok () n') := by
  rw [Method.bind_ok_iff]
  constructor
  · rintro ⟨lost, n₁, hlost, h⟩
    obtain ⟨hmax, rfl, rfl⟩ := nextIsLost_ok_iff.mp hlost
    refine ⟨hmax, ?_⟩
    by_cases hlose : n.packetSeq % loseEvery = 0
    · rw [decide_eq_true hlose, if_pos rfl] at h
      exact Or.inl ⟨hlose, (Method.pure_ok_iff.mp h).2.symm⟩
    · rw [decide_eq_false hlose, if_neg Bool.false_ne_true] at h
      exact Or.inr ⟨hlose, h⟩
  · rintro ⟨hmax, ⟨hlose, rfl⟩ | ⟨hlose, h⟩⟩
    · refine ⟨_, _, nextIsLost_ok_iff.mpr ⟨hmax, rfl, rfl⟩, ?_⟩
      rw [decide_eq_true hlose, if_pos rfl]
      rfl
    · refine ⟨_, _, nextIsLost_ok_iff.mpr ⟨hmax, rfl, rfl⟩, ?_⟩
      rw [decide_eq_false hlose, if_neg Bool.false_ne_true]
      exact h

/-- The block a packet is for: it is there, or it is made from the size in the packet. -/
def BlockFor (n : Node W S ε) (h : BlockPacketHeader) (block : Block W) : Prop :=
  n.blocks (h.channelId, h.blockId) = some block ∨
    n.blocks (h.channelId, h.blockId) = none ∧ Block.ofSize h.blockSize.toNat = .ok block

theorem BlockFor.of_some {n : Node W S ε} {h : BlockPacketHeader} {block block₀ : Block W}
    (hblock : n.BlockFor h block) (hsome : n.blocks (h.channelId, h.blockId) = some block₀) :
    block = block₀ := by
  rcases hblock with hthere | ⟨hnone, _⟩
  · exact Option.some.inj (hthere.symm.trans hsome)
  · rw [hnone] at hsome
    cases hsome

/-- The node once a block packet was counted and its block is `block`. -/
def withBlock (n : Node W S ε) (h : BlockPacketHeader) (block : Block W) : Node W S ε :=
  { n.counted with blocks := Function.update n.blocks (h.channelId, h.blockId) (some block) }

/-- The node once the stream of a channel is `stream`. -/
def withStream (n : Node W S ε) (channelId : UInt32) (stream : ContinuousStream S) :
    Node W S ε :=
  { n with streams := Function.update n.streams channelId (some stream) }

/-- What a handler of a block packet did that was not lost. -/
structure BlockHandled (around : Surroundings ε) (data : Bytes) (n n' : Node W S ε)
    (h : BlockPacketHeader) (payload : Bytes) (block : Block W) (decoded : Bool)
    (block' : Block W) (generated : List Bytes) : Prop where
  header_ok : Packet.header BlockPacketHeader data = .ok h
  payload_ok : Packet.payload BlockPacketHeader data = .ok payload
  survives : n.packetSeq % loseEvery ≠ 0
  bounded : n.packetSeq ≠ intMax
  blockFor : n.BlockFor h block
  processed : Block.processSymbol payload h.packetIndex.toNat block = .ok decoded block'
  generated_ok : generate h decoded block' = .ok generated
  queued : queueToAll around h.channelId (data :: generated) (n.withBlock h block') = .ok () n'

/-- The packets symbols are passed on in. -/
def streamPackets (channelId : UInt32) (symbols : List Symbol) : List Bytes :=
  symbols.map fun symbol => Packet.makeStream symbol.1 channelId (UInt32.ofNat symbol.2)

/-- What a handler of a stream packet did that was not lost. -/
structure StreamHandled (around : Surroundings ε) (data : Bytes) (n n' : Node W S ε)
    (h : StreamPacketHeader) (payload : Bytes) (d₁ d₂ : ContinuousStreamDecoder S)
    (s₁ : ContinuousStream S) (symbols : List Symbol) (e₁ : ContinuousStreamEncoder S)
    (acks : List (ε × Bytes)) : Prop where
  header_ok : Packet.header StreamPacketHeader data = .ok h
  payload_ok : Packet.payload StreamPacketHeader data = .ok payload
  survives : n.packetSeq % loseEvery ≠ 0
  bounded : n.packetSeq ≠ intMax
  processed : ContinuousStreamDecoder.processSymbol around.rounds payload h.packetIndex.toNat
    (n.stream h.channelId).decoder = .ok () d₁
  acked : ∃ ack, ContinuousStreamDecoder.generateAck d₁ = .ok ack d₂
  relayed : ContinuousStream.relayChunks
    { n.stream h.channelId with decoder := d₂ } = .ok () s₁
  drained : ContinuousStreamEncoder.drainSymbols fecRatio around.rounds s₁.encoder =
    .ok symbols e₁
  queued : (symbols = [] ∧ n' = { n.counted with sentAcks := acks }.withStream h.channelId
      { s₁ with encoder := e₁ }) ∨
    queueToAll around h.channelId (streamPackets h.channelId symbols)
      ({ n.counted with sentAcks := acks }.withStream h.channelId { s₁ with encoder := e₁ }) =
        .ok () n'

theorem emplaceBlock_ok {h : BlockPacketHeader} {n n' : Node W S ε} {block : Block W}
    (hemplace : emplaceBlock (h.channelId, h.blockId) h.blockSize n = .ok block n') :
    n.BlockFor h block ∧ n' = { n with
      blocks := Function.update n.blocks (h.channelId, h.blockId) (some block) } := by
  rw [emplaceBlock, Method.bind_of_ok (Method.get_apply n)] at hemplace
  cases hblock : n.blocks (h.channelId, h.blockId) with
  | some known =>
      rw [hblock] at hemplace
      cases hemplace
      refine ⟨Or.inl hblock, ?_⟩
      rw [← hblock, Function.update_eq_self]
  | none =>
      rw [hblock] at hemplace
      obtain ⟨made, n₁, hlift, hemplace⟩ := Method.bind_ok_iff.mp hemplace
      obtain ⟨hmade, rfl⟩ := Method.lift_ok_iff.mp hlift
      cases hemplace
      exact ⟨Or.inr ⟨hblock, hmade⟩, rfl⟩

theorem handleBlock_ok {around : Surroundings ε} {data : Bytes} {n n' : Node W S ε}
    (h : handleBlock around data n = .ok () n') :
    (n.packetSeq ≠ intMax ∧ n' = n.counted ∧ n.packetSeq % loseEvery = 0) ∨
      ∃ h payload block decoded block' generated,
        BlockHandled around data n n' h payload block decoded block' generated := by
  unfold handleBlock at h
  obtain ⟨hd, hheader, h⟩ := Method.lift_bind_ok_iff.mp h
  obtain ⟨hmax, ⟨hlose, rfl⟩ | ⟨hlose, h⟩⟩ := lossy_ok_iff.mp h
  · exact Or.inl ⟨hmax, rfl, hlose⟩
  · obtain ⟨block, n₂, hemplace, h⟩ := Method.bind_ok_iff.mp h
    obtain ⟨hblock, rfl⟩ := emplaceBlock_ok hemplace
    obtain ⟨payload, hpayload, h⟩ := Method.lift_bind_ok_iff.mp h
    obtain ⟨result, n₄, honBlock, h⟩ := Method.bind_ok_iff.mp h
    unfold onBlock at honBlock
    obtain ⟨block', hcall, rfl⟩ := Method.zoom_ok_iff.mp honBlock
    obtain ⟨decoded, block₁, hprocess, hresult⟩ := Method.bind_ok_iff.mp hcall
    cases hresult
    obtain ⟨generated, hgenerated, h⟩ := Method.lift_bind_ok_iff.mp h
    refine Or.inr ⟨hd, payload, block, decoded, block', generated, hheader, hpayload, hlose, hmax,
      hblock, hprocess, hgenerated, ?_⟩
    dsimp only at h
    rw [Function.update_idem] at h
    exact h

theorem onStream_ok {α : Type} {channelId : UInt32} {m : Method Fault (ContinuousStream S) α}
    {n n' : Node W S ε} {a : α} (h : onStream channelId m n = .ok a n') :
    ∃ s, m (n.stream channelId) = .ok a s ∧ n' = n.withStream channelId s := by
  unfold onStream at h
  exact Method.zoom_ok_iff.mp h

@[simp] theorem withStream_withStream (n : Node W S ε) (channelId : UInt32)
    (s s' : ContinuousStream S) :
    (n.withStream channelId s).withStream channelId s' = n.withStream channelId s' := by
  unfold withStream
  rw [Function.update_idem]

@[simp] theorem withStream_stream_self (n : Node W S ε) (channelId : UInt32)
    (s : ContinuousStream S) : (n.withStream channelId s).stream channelId = s := by
  show (Function.update n.streams channelId (some s) channelId).getD {} = s
  rw [Function.update_self]
  rfl

/-- What the handler of a stream packet does behind the ack: the chunks that are in order
are passed on. -/
def relayOn (around : Surroundings ε) (channelId : UInt32) : Method Fault (Node W S ε) Unit := do
  onStream channelId ContinuousStream.relayChunks
  let symbols ← onStream channelId
    (ContinuousStream.onEncoder (ContinuousStreamEncoder.drainSymbols fecRatio around.rounds))
  if !(streamPackets channelId symbols).isEmpty then
    queueToAll around channelId (streamPackets channelId symbols)

theorem handleStream_eq (around : Surroundings ε) (data : Bytes) (peer : ε) :
    (handleStream around data peer : Method Fault (Node W S ε) Unit) = (do
      let h ← Method.lift (Packet.header StreamPacketHeader data)
      let lost ← nextIsLost
      if lost then
        pure ()
      else
        let payload ← Method.lift (Packet.payload StreamPacketHeader data)
        onStream h.channelId (ContinuousStream.onDecoder
          (ContinuousStreamDecoder.processSymbol around.rounds payload h.packetIndex.toNat))
        let ack ← onStream h.channelId
          (ContinuousStream.onDecoder ContinuousStreamDecoder.generateAck)
        if !ack.isEmpty then
          sendBytes peer (Packet.makeStreamAck ack h.channelId) >>= fun _ =>
            relayOn around h.channelId
        else
          relayOn around h.channelId) := rfl

theorem handleStream_ok {around : Surroundings ε} {data : Bytes} {peer : ε} {n n' : Node W S ε}
    (h : handleStream around data peer n = .ok () n') :
    (n.packetSeq ≠ intMax ∧ n' = n.counted ∧ n.packetSeq % loseEvery = 0) ∨
      ∃ h payload d₁ d₂ s₁ symbols e₁ acks,
        StreamHandled around data n n' h payload d₁ d₂ s₁ symbols e₁ acks := by
  rw [handleStream_eq] at h
  obtain ⟨hd, hheader, h⟩ := Method.lift_bind_ok_iff.mp h
  obtain ⟨hmax, ⟨hlose, rfl⟩ | ⟨hlose, h⟩⟩ := lossy_ok_iff.mp h
  · exact Or.inl ⟨hmax, rfl, hlose⟩
  · obtain ⟨payload, hpayload, h⟩ := Method.lift_bind_ok_iff.mp h
    -- the symbol, then the ack
    obtain ⟨_, n₁, hsymbol, h⟩ := Method.bind_ok_iff.mp h
    obtain ⟨_, hsymbol', rfl⟩ := onStream_ok hsymbol
    obtain ⟨d₁, hprocessed, rfl⟩ := Method.zoom_ok_iff.mp hsymbol'
    obtain ⟨ack, n₂, hack, h⟩ := Method.bind_ok_iff.mp h
    obtain ⟨_, hack', rfl⟩ := onStream_ok hack
    rw [withStream_stream_self] at hack'
    obtain ⟨d₂, hacked, rfl⟩ := Method.zoom_ok_iff.mp hack'
    rw [withStream_withStream] at h
    obtain ⟨acks, h⟩ : ∃ acks, relayOn around hd.channelId
        ({ n.counted with sentAcks := acks }.withStream hd.channelId
          { n.stream hd.channelId with decoder := d₂ }) = .ok () n' := by
      cases hempty : ack.isEmpty with
      | true =>
          rw [hempty] at h
          exact ⟨n.sentAcks, h⟩
      | false =>
          rw [hempty] at h
          exact ⟨n.sentAcks ++ [(peer, Packet.makeStreamAck ack hd.channelId)], h⟩
    -- the chunks, then the symbols made of them
    obtain ⟨_, n₃, hrelay, h⟩ := Method.bind_ok_iff.mp h
    obtain ⟨s₁, hrelayed, rfl⟩ := onStream_ok hrelay
    rw [withStream_stream_self] at hrelayed
    rw [withStream_withStream] at h
    obtain ⟨symbols, n₄, hdrain, h⟩ := Method.bind_ok_iff.mp h
    obtain ⟨_, hdrain', rfl⟩ := onStream_ok hdrain
    rw [withStream_stream_self] at hdrain'
    obtain ⟨e₁, hdrained, rfl⟩ := Method.zoom_ok_iff.mp hdrain'
    rw [withStream_withStream] at h
    refine Or.inr ⟨hd, payload, d₁, d₂, s₁, symbols, e₁, acks, hheader, hpayload, hlose, hmax,
      hprocessed, ⟨ack, hacked⟩, hrelayed, hdrained, ?_⟩
    cases symbols with
    | nil =>
        obtain ⟨-, rfl⟩ := Method.pure_ok_iff.mp h
        exact Or.inl ⟨rfl, rfl⟩
    | cons symbol rest => exact Or.inr h

theorem handleStreamAck_ok {data : Bytes} {n n' : Node W S ε}
    (h : handleStreamAck data n = .ok () n') :
    ∃ h payload e₁, Packet.header StreamAckPacketHeader data = .ok h ∧
      Packet.payload StreamAckPacketHeader data = .ok payload ∧
      ContinuousStreamEncoder.processAck payload
        (n.stream h.channelId).encoder = .ok () e₁ ∧
      n' = n.withStream h.channelId { n.stream h.channelId with encoder := e₁ } := by
  unfold handleStreamAck at h
  obtain ⟨hd, hheader, h⟩ := Method.lift_bind_ok_iff.mp h
  obtain ⟨payload, hpayload, h⟩ := Method.lift_bind_ok_iff.mp h
  obtain ⟨s, hack, rfl⟩ := onStream_ok h
  obtain ⟨e₁, hprocessed, rfl⟩ := Method.zoom_ok_iff.mp hack
  exact ⟨hd, payload, e₁, hheader, hpayload, hprocessed, rfl⟩

theorem readWord_ok {data : Bytes} {i : Nat} {w : UInt32} (h : readWord data i = .ok w) :
    w = word data i ∧ 4 * (i + 1) ≤ data.length := by
  unfold readWord at h
  split at h
  · next hsize =>
      cases h
      exact ⟨rfl, hsize⟩
  · cases h

/-- A control packet does nothing, or it subscribes the peer. -/
theorem handleControl_cases {data : Bytes} {peer : ε} {n n' : Node W S ε}
    (h : handleControl data peer n = .ok () n') :
    (word data 2 ≠ actionSubscribe ∧ n' = n) ∨
      (word data 2 = actionSubscribe ∧ sizeOfHeader ControlPacketHeader ≤ data.length ∧
        n' = subscribe (word data 3) peer (word data 4) n) := by
  unfold handleControl at h
  obtain ⟨action, haction, h⟩ := Method.lift_bind_ok_iff.mp h
  obtain ⟨rfl, -⟩ := readWord_ok haction
  by_cases hsubscribe : word data 2 = actionSubscribe
  · rw [if_pos hsubscribe] at h
    obtain ⟨channelId, hchannel, h⟩ := Method.lift_bind_ok_iff.mp h
    obtain ⟨kbps, hkbps, h⟩ := Method.lift_bind_ok_iff.mp h
    obtain ⟨rfl, -⟩ := readWord_ok hchannel
    obtain ⟨rfl, hsize⟩ := readWord_ok hkbps
    cases h
    exact Or.inr ⟨hsubscribe, hsize, rfl⟩
  · rw [if_neg hsubscribe] at h
    obtain ⟨-, rfl⟩ := Method.pure_ok_iff.mp h
    exact Or.inl ⟨hsubscribe, rfl⟩

theorem handleControl_ok {data : Bytes} {peer : ε} {n n' : Node W S ε}
    (h : handleControl data peer n = .ok () n') :
    n' = n ∨ ∃ channelId kbps, n' = subscribe channelId peer kbps n := by
  rcases handleControl_cases h with ⟨-, rfl⟩ | ⟨-, -, rfl⟩
  · exact Or.inl rfl
  · exact Or.inr ⟨_, _, rfl⟩

/-! ## Types of packets -/

@[simp] theorem typeOf_makeBlock (payload : Bytes)
    (channelId blockId blockSize packetIndex : UInt32) :
    typeOf (Packet.makeBlock payload channelId blockId blockSize packetIndex) =
      some .block := by
  show PacketType.ofCode (word (storeWords
    [0, PacketType.block.code, channelId, blockId, blockSize, packetIndex] ++ payload) 1) = _
  simp [word_storeWords]

@[simp] theorem typeOf_makeStream (payload : Bytes) (channelId packetIndex : UInt32) :
    typeOf (Packet.makeStream payload channelId packetIndex) = some .stream := by
  show PacketType.ofCode (word (storeWords
    [0, PacketType.stream.code, channelId, packetIndex] ++ payload) 1) = _
  simp [word_storeWords]

/-- What is generated of a block are block packets. -/
theorem typeOf_of_generate {h : BlockPacketHeader} {decoded : Bool} {block : Block W}
    {generated : List Bytes} (hgenerated : generate h decoded block = .ok generated) :
    ∀ data ∈ generated, typeOf data = some .block := by
  intro data hdata
  cases decoded with
  | true =>
      rw [generate, if_pos rfl] at hgenerated
      obtain ⟨symbol, rfl⟩ := blockPacketRange_mem hgenerated data hdata
      apply typeOf_makeBlock
  | false =>
      rw [generate, if_neg Bool.false_ne_true] at hgenerated
      cases hgenerated
      cases hdata

/-! ## Steps -/

/-- The handler of a type of packet. -/
def handlerOf (around : Surroundings ε) (data : Bytes) (peer : ε) :
    PacketType → Method Fault (Node W S ε) Unit
  | .control => handleControl data peer
  | .block => handleBlock around data
  | .stream => handleStream around data peer
  | .streamAck => handleStreamAck data

/-- A datagram that is as long as a header is handled by its type. -/
theorem handlePacket_of_type {data : Bytes} {t : PacketType}
    (hsize : sizeOfHeader PacketHeader ≤ data.length) (htype : typeOf data = some t)
    (around : Surroundings ε) (peer : ε) (n : Node W S ε) :
    handlePacket around data peer n = handlerOf around data peer t n := by
  have hheader := Packet.header_ok_iff.mpr
    ⟨hsize, (rfl : (PacketLayout.view data : PacketHeader) = _)⟩
  unfold typeOf at htype
  rw [handlePacket, hheader, Method.bind_of_ok (Method.lift_ok _ n), htype]
  cases t <;> rfl

theorem handlerOf_ok {around : Surroundings ε} {data : Bytes} {peer : ε} {n n' : Node W S ε}
    (h : handlePacket around data peer n = .ok () n') :
    ∃ t, typeOf data = some t ∧ handlerOf around data peer t n = .ok () n' := by
  obtain ⟨hd, hheader, hcall⟩ := Method.lift_bind_ok_iff.mp h
  obtain ⟨hsize, rfl⟩ := Packet.header_ok_iff.mp hheader
  cases htype : typeOf data with
  | none =>
      unfold typeOf at htype
      rw [htype] at hcall
      cases hcall
  | some t =>
      rw [handlePacket_of_type hsize htype] at h
      exact ⟨t, rfl, h⟩

/-- A handler that returned was that of the datagram's type. -/
theorem handlePacket_ok {around : Surroundings ε} {data : Bytes} {peer : ε} {n n' : Node W S ε}
    (h : handlePacket around data peer n = .ok () n') :
    (typeOf data = some .control ∧ handleControl data peer n = .ok () n') ∨
    (typeOf data = some .block ∧ handleBlock around data n = .ok () n') ∨
    (typeOf data = some .stream ∧ handleStream around data peer n = .ok () n') ∨
    (typeOf data = some .streamAck ∧ handleStreamAck data n = .ok () n') := by
  obtain ⟨t, htype, hcall⟩ := handlerOf_ok h
  cases t with
  | control => exact Or.inl ⟨htype, hcall⟩
  | block => exact Or.inr (Or.inl ⟨htype, hcall⟩)
  | stream => exact Or.inr (Or.inr (Or.inl ⟨htype, hcall⟩))
  | streamAck => exact Or.inr (Or.inr (Or.inr ⟨htype, hcall⟩))

/-- Packets were queued to the subscribers of a channel, and nothing else was done. -/
structure Queues (channelId : UInt32) (packets : List Bytes) (n n' : Node W S ε) : Prop where
  packetSeq : n'.packetSeq = n.packetSeq
  blocks : n'.blocks = n.blocks
  streams : n'.streams = n.streams
  subscribed : ∀ c peer, n.Subscribed c peer → n'.Subscribed c peer
  queued : ∀ peer, n.Subscribed channelId peer →
    n'.queuedTo channelId peer = n.queuedTo channelId peer ++ packets
  unqueued : ∀ c peer, c ≠ channelId ∨ ¬n.Subscribed c peer →
    n'.queuedTo c peer = n.queuedTo c peer

theorem not_subscribed_iff {n : Node W S ε} {c : UInt32} {peer : ε} :
    ¬n.Subscribed c peer ↔ n.receiver c peer = none := by
  unfold Subscribed
  simp

/-- Queueing to a channel runs over the receivers of its subscribers, and over no other. -/
theorem receiver_of_queueToAll {around : Surroundings ε} {channelId : UInt32}
    {packets : List Bytes} {n n' : Node W S ε}
    (h : queueToAll around channelId packets n = .ok () n') (c : UInt32) (peer : ε) :
    (c ≠ channelId ∨ ¬n.Subscribed c peer) ∧ n'.receiver c peer = n.receiver c peer ∨
      ∃ r r', c = channelId ∧ n.receiver c peer = some r ∧ n'.receiver c peer = some r' ∧
        queuePackets (around.clock peer) packets r = .ok () r' := by
  obtain ⟨receivers, rfl, hvisited⟩ := queueToAll_ok h
  by_cases hc : c = channelId
  · subst hc
    have hreceiver : (receiver { n with
        subscriptions := Function.update n.subscriptions c receivers } c peer) =
        receivers.find? peer := by
      unfold receiver
      simp
    rw [hreceiver]
    rcases hvisited peer with ⟨hnone, hnone'⟩ | ⟨r, r', hr, hcall, hr'⟩
    · exact Or.inl ⟨Or.inr (not_subscribed_iff.mpr hnone), hnone'.trans hnone.symm⟩
    · exact Or.inr ⟨r, r', rfl, hr, hr', hcall⟩
  · left
    refine ⟨Or.inl hc, ?_⟩
    unfold receiver
    simp [hc]

theorem queues_of_queueToAll {around : Surroundings ε} {channelId : UInt32}
    {packets : List Bytes} {n n' : Node W S ε}
    (h : queueToAll around channelId packets n = .ok () n') : Queues channelId packets n n' := by
  have hreceiver := receiver_of_queueToAll h
  obtain ⟨receivers, rfl, -⟩ := queueToAll_ok h
  refine ⟨rfl, rfl, rfl, ?_, ?_, ?_⟩
  · intro c peer hsub
    unfold Subscribed at hsub ⊢
    rcases hreceiver c peer with ⟨_, hsame⟩ | ⟨r, r', _, _, hr', _⟩
    · rwa [hsame]
    · rw [hr']
      rfl
  · intro peer hsub
    rcases hreceiver channelId peer with ⟨hnot, _⟩ | ⟨r, r', _, hr, hr', hqueue⟩
    · exact absurd hsub (hnot.resolve_left fun hne => hne rfl)
    · unfold queuedTo
      rw [hr, hr']
      exact queuePackets_ok hqueue
  · intro c peer hnot
    rcases hreceiver c peer with ⟨_, hsame⟩ | ⟨r, r', hc, hr, _, _⟩
    · unfold queuedTo
      rw [hsame]
    · refine absurd ?_ (hnot.resolve_left fun hne => hne hc)
      unfold Subscribed
      rw [hr]
      rfl

/-- Nothing was queued, and no block or stream was touched. -/
structure Quiet (n n' : Node W S ε) : Prop where
  packetSeq : n'.packetSeq = n.packetSeq ∨ n.packetSeq ≠ intMax ∧ n'.packetSeq = n.packetSeq + 1
  blocks : n'.blocks = n.blocks
  streams : n'.streams = n.streams
  subscribed : ∀ c peer, n.Subscribed c peer → n'.Subscribed c peer
  queued : ∀ c peer, n'.queuedTo c peer = n.queuedTo c peer

theorem Quiet.refl (n : Node W S ε) : Quiet n n :=
  ⟨Or.inl rfl, rfl, rfl, fun _ _ h => h, fun _ _ => rfl⟩

theorem quiet_counted {n : Node W S ε} (h : n.packetSeq ≠ intMax) : Quiet n n.counted :=
  ⟨Or.inr ⟨h, rfl⟩, rfl, rfl, fun _ _ h => h, fun _ _ => rfl⟩

theorem receiver_withReceiver (n : Node W S ε) (channelId c : UInt32) (peer p : ε)
    (r : AsioReceiver) : (n.withReceiver channelId peer r).receiver c p =
      if c = channelId ∧ peer = p then some r else n.receiver c p := by
  show (Function.update n.subscriptions channelId _ c).find? p = _
  by_cases hc : c = channelId
  · subst hc
    rw [Function.update_self, OrderedMap.find?_insertOrAssign]
    simp only [true_and]
    rfl
  · rw [Function.update_of_ne hc, if_neg (fun h => hc h.1)]
    rfl

/-- A receiver that took the place of another one, or of none, with the same record. -/
theorem quiet_withReceiver (n : Node W S ε) (channelId : UInt32) (peer : ε)
    (r : AsioReceiver) (hqueued : r.queued = n.queuedTo channelId peer) :
    Quiet n (n.withReceiver channelId peer r) := by
  refine ⟨Or.inl rfl, rfl, rfl, ?_, ?_⟩
  · intro c p hsub
    unfold Subscribed
    rw [receiver_withReceiver]
    split
    · rfl
    · exact hsub
  · intro c p
    unfold queuedTo
    rw [receiver_withReceiver]
    split
    · next h =>
        obtain ⟨rfl, rfl⟩ := h
        exact hqueued
    · rfl

theorem quiet_subscribe (n : Node W S ε) (channelId : UInt32) (peer : ε) (kbps : UInt32) :
    Quiet n (subscribe channelId peer kbps n) := by
  apply quiet_withReceiver n channelId peer _
  unfold queuedTo receiver
  cases (n.subscriptions channelId).find? peer <;> rfl

theorem onReceiver_ok {channelId : UInt32} {peer : ε} {m : Method Fault AsioReceiver Unit}
    {n n' : Node W S ε} (h : onReceiver channelId peer m n = .ok () n') :
    (n.receiver channelId peer = none ∧ n' = n) ∨
      ∃ r r', n.receiver channelId peer = some r ∧ m r = .ok () r' ∧
        n' = n.withReceiver channelId peer r' := by
  unfold onReceiver at h
  cases hreceiver : n.receiver channelId peer with
  | none =>
      rw [hreceiver] at h
      cases h
      exact Or.inl ⟨rfl, rfl⟩
  | some r =>
      rw [hreceiver] at h
      obtain ⟨r', hr', rfl⟩ := Method.zoom_ok_iff.mp h
      exact Or.inr ⟨r, r', rfl, hr', rfl⟩

theorem quiet_onReceiver {channelId : UInt32} {peer : ε} {m : Method Fault AsioReceiver Unit}
    (hm : ∀ r, (Method.after (m r)).queued = r.queued) {n n' : Node W S ε}
    (h : onReceiver channelId peer m n = .ok () n') : Quiet n n' := by
  rcases onReceiver_ok h with ⟨-, rfl⟩ | ⟨r, r', hr, hcall, rfl⟩
  · exact Quiet.refl n'
  · apply quiet_withReceiver n channelId peer r'
    have hqueued := hm r
    rw [hcall] at hqueued
    unfold queuedTo
    rw [hr]
    exact hqueued

/-- What a step can do: it is quiet, or a block packet, a stream packet or an ack was
handled. -/
theorem step_cases {n n' : Node W S ε} {e : Event ε} (h : Step n e n') :
    Quiet n n' ∨ ∃ around data peer, e = .datagram around data peer ∧
      ((typeOf data = some .block ∧ ∃ h payload block decoded block' generated,
          BlockHandled around data n n' h payload block decoded block' generated) ∨
        (typeOf data = some .stream ∧ ∃ h payload d₁ d₂ s₁ symbols e₁ acks,
          StreamHandled around data n n' h payload d₁ d₂ s₁ symbols e₁ acks) ∨
        (typeOf data = some .streamAck ∧ handleStreamAck data n = .ok () n')) := by
  have hresult := h.result
  cases e with
  | datagram around data peer =>
      rcases handlePacket_ok hresult with ⟨_, hcall⟩ | ⟨ht, hcall⟩ | ⟨ht, hcall⟩ | ⟨ht, hcall⟩
      · -- a subscription, or another action
        rcases handleControl_ok hcall with rfl | ⟨channelId, kbps, rfl⟩
        · exact Or.inl (Quiet.refl n')
        · exact Or.inl (quiet_subscribe n channelId peer kbps)
      · rcases handleBlock_ok hcall with ⟨hmax, rfl, -⟩ | hhandled
        · exact Or.inl (quiet_counted hmax)
        · exact Or.inr ⟨around, data, peer, rfl, Or.inl ⟨ht, hhandled⟩⟩
      · rcases handleStream_ok hcall with ⟨hmax, rfl, -⟩ | hhandled
        · exact Or.inl (quiet_counted hmax)
        · exact Or.inr ⟨around, data, peer, rfl, Or.inr (Or.inl ⟨ht, hhandled⟩)⟩
      · exact Or.inr ⟨around, data, peer, rfl, Or.inr (Or.inr ⟨ht, hcall⟩)⟩
  | timerExpires channelId peer now =>
      exact Or.inl (quiet_onReceiver (AsioReceiver.waitDone_queued now) hresult)
  | waitAborted channelId peer => exact Or.inl (quiet_onReceiver (fun _ => rfl) hresult)

/-! ## What every step keeps -/

/-- What is queued is on record from then on, a subscriber stays one, and packets are
counted as far as an `int` goes. -/
structure Grows (n n' : Node W S ε) : Prop where
  packetSeq : n'.packetSeq = n.packetSeq ∨ n.packetSeq ≠ intMax ∧ n'.packetSeq = n.packetSeq + 1
  subscribed : ∀ c peer, n.Subscribed c peer → n'.Subscribed c peer
  queued : ∀ c peer, n.queuedTo c peer <+: n'.queuedTo c peer

theorem Quiet.grows {n n' : Node W S ε} (h : Quiet n n') : Grows n n' where
  packetSeq := h.packetSeq
  subscribed := h.subscribed
  queued c peer := by
    rw [h.queued]

theorem Queues.queued_prefix {channelId : UInt32} {packets : List Bytes} {n n' : Node W S ε}
    (h : Queues channelId packets n n') (c : UInt32) (peer : ε) :
    n.queuedTo c peer <+: n'.queuedTo c peer := by
  by_cases hto : c = channelId ∧ n.Subscribed c peer
  · obtain ⟨rfl, hsub⟩ := hto
    rw [h.queued peer hsub]
    exact List.prefix_append _ _
  · rw [h.unqueued c peer (not_and_or.mp hto)]

section handled

variable {around : Surroundings ε} {data : Bytes} {n n' : Node W S ε}

/-- A block packet that was not lost touches its block, and no stream. -/
theorem BlockHandled.effect {h : BlockPacketHeader} {payload : Bytes} {block block' : Block W}
    {decoded : Bool} {generated : List Bytes}
    (hhandled : BlockHandled around data n n' h payload block decoded block' generated) :
    n'.packetSeq = n.packetSeq + 1 ∧ n'.streams = n.streams ∧
      n'.blocks = Function.update n.blocks (h.channelId, h.blockId) (some block') ∧
      Queues h.channelId (data :: generated) (n.withBlock h block') n' := by
  have hqueues := queues_of_queueToAll hhandled.queued
  exact ⟨hqueues.packetSeq, hqueues.streams, hqueues.blocks, hqueues⟩

theorem BlockHandled.block_after {h : BlockPacketHeader} {payload : Bytes} {block block' : Block W}
    {decoded : Bool} {generated : List Bytes}
    (hhandled : BlockHandled around data n n' h payload block decoded block' generated) :
    n'.blocks (h.channelId, h.blockId) = some block' := by
  rw [hhandled.effect.2.2.1, Function.update_self]

/-- A block packet is left alone by a decoded block; another block marks its index, and
reports whether it is decoded now. -/
theorem BlockHandled.outcome {h : BlockPacketHeader} {payload : Bytes} {block block' : Block W}
    {decoded : Bool} {generated : List Bytes}
    (hhandled : BlockHandled around data n n' h payload block decoded block' generated) :
    (block.decoded ≠ [] ∧ block' = block ∧ decoded = false) ∨
      (block.decoded = [] ∧ block'.symbolsSeen = Block.mark block.symbolsSeen h.packetIndex.toNat ∧
        (decoded = true ↔ block'.decoded ≠ [])) := by
  have hcall := hhandled.processed
  by_cases hdecoded : block.decoded = []
  · exact Or.inr ⟨hdecoded, (Block.processSymbol_marks hdecoded hcall).1,
      Block.processSymbol_reports hdecoded hcall⟩
  · rw [Block.processSymbol_of_decoded hdecoded] at hcall
    cases hcall
    exact Or.inl ⟨hdecoded, rfl, rfl⟩

/-- A stream packet that was not lost touches its stream, and no block. -/
theorem StreamHandled.effect {h : StreamPacketHeader} {payload : Bytes}
    {d₁ d₂ : ContinuousStreamDecoder S} {s₁ : ContinuousStream S} {symbols : List Symbol}
    {e₁ : ContinuousStreamEncoder S} {acks : List (ε × Bytes)}
    (hhandled : StreamHandled around data n n' h payload d₁ d₂ s₁ symbols e₁ acks) :
    n'.packetSeq = n.packetSeq + 1 ∧ n'.blocks = n.blocks ∧
      n'.streams = Function.update n.streams h.channelId (some { s₁ with encoder := e₁ }) ∧
      (∀ c peer, n.Subscribed c peer → n'.Subscribed c peer) ∧
      ∀ c peer, n'.queuedTo c peer = n.queuedTo c peer ∨
        c = h.channelId ∧
          n'.queuedTo c peer = n.queuedTo c peer ++ streamPackets h.channelId symbols := by
  rcases hhandled.queued with ⟨_, rfl⟩ | hqueue
  · exact ⟨rfl, rfl, rfl, fun _ _ hsub => hsub, fun _ _ => Or.inl rfl⟩
  · have hqueues := queues_of_queueToAll hqueue
    refine ⟨hqueues.packetSeq, hqueues.blocks, hqueues.streams, hqueues.subscribed, ?_⟩
    intro c peer
    by_cases hto : c = h.channelId ∧ n.Subscribed c peer
    · obtain ⟨rfl, hsub⟩ := hto
      exact Or.inr ⟨rfl, hqueues.queued peer hsub⟩
    · exact Or.inl (hqueues.unqueued c peer (not_and_or.mp hto))

end handled

theorem step_grows {n n' : Node W S ε} {e : Event ε} (h : Step n e n') : Grows n n' := by
  rcases step_cases h with hquiet | ⟨around, data, peer, _, hcases⟩
  · exact hquiet.grows
  rcases hcases with ⟨_, hd, payload, block, decoded, block', generated, hhandled⟩ |
    ⟨_, hd, payload, d₁, d₂, s₁, symbols, e₁, acks, hhandled⟩ | ⟨_, hack⟩
  · obtain ⟨hseq, _, _, hqueues⟩ := hhandled.effect
    exact ⟨Or.inr ⟨hhandled.bounded, hseq⟩, hqueues.subscribed, hqueues.queued_prefix⟩
  · obtain ⟨hseq, _, _, hsubscribed, hqueued⟩ := hhandled.effect
    refine ⟨Or.inr ⟨hhandled.bounded, hseq⟩, hsubscribed, ?_⟩
    intro c p
    rcases hqueued c p with heq | ⟨_, heq⟩
    · rw [heq]
    · rw [heq]
      exact List.prefix_append _ _
  · obtain ⟨hd, payload, e₁, _, _, _, rfl⟩ := handleStreamAck_ok hack
    exact ⟨Or.inl rfl, fun _ _ hsub => hsub, fun _ _ => List.prefix_refl _⟩

/-- A step leaves the blocks alone, or it handles a block packet. -/
theorem step_blocks {n n' : Node W S ε} {e : Event ε} (h : Step n e n') :
    n'.blocks = n.blocks ∨ ∃ around data peer hd payload block decoded block' generated,
      e = .datagram around data peer ∧ typeOf data = some .block ∧
        BlockHandled around data n n' hd payload block decoded block' generated := by
  rcases step_cases h with hquiet | ⟨around, data, peer, rfl, hcases⟩
  · exact Or.inl hquiet.blocks
  rcases hcases with ⟨ht, hd, payload, block, decoded, block', generated, hhandled⟩ |
    ⟨_, hd, payload, d₁, d₂, s₁, symbols, e₁, acks, hhandled⟩ | ⟨_, hack⟩
  · exact Or.inr ⟨around, data, peer, hd, payload, block, decoded, block', generated, rfl, ht,
      hhandled⟩
  · exact Or.inl hhandled.effect.2.1
  · obtain ⟨hd, payload, e₁, _, _, _, rfl⟩ := handleStreamAck_ok hack
    exact Or.inl rfl

/-! ### What a step does to a stream -/

/-- The stream of a channel was left alone, and no stream packet was queued to the channel. -/
structure LeavesStream (channelId : UInt32) (n n' : Node W S ε) : Prop where
  stream_eq : n'.stream channelId = n.stream channelId
  queued : ∀ peer, ∀ data ∈ n'.queuedTo channelId peer, typeOf data = some .stream →
    data ∈ n.queuedTo channelId peer

section streams

variable {n n' : Node W S ε} {channelId c : UInt32} {s : ContinuousStream S}

theorem stream_of_streams_eq (h : n'.streams = n.streams) (channelId : UInt32) :
    n'.stream channelId = n.stream channelId := by
  unfold stream
  rw [h]

theorem stream_of_update_self (h : n'.streams = Function.update n.streams channelId (some s)) :
    n'.stream channelId = s := by
  unfold stream
  rw [h, Function.update_self]
  rfl

theorem stream_of_update_of_ne (h : n'.streams = Function.update n.streams c (some s))
    (hc : channelId ≠ c) : n'.stream channelId = n.stream channelId := by
  unfold stream
  rw [h, Function.update_of_ne hc]

end streams

theorem Queues.mem_queuedTo {channelId : UInt32} {packets : List Bytes} {n n' : Node W S ε}
    (h : Queues channelId packets n n') {c : UInt32} {peer : ε} {data : Bytes}
    (hdata : data ∈ n'.queuedTo c peer) : data ∈ n.queuedTo c peer ∨ data ∈ packets := by
  by_cases hto : c = channelId ∧ n.Subscribed c peer
  · obtain ⟨rfl, hsub⟩ := hto
    rw [h.queued peer hsub] at hdata
    exact List.mem_append.mp hdata
  · rw [h.unqueued c peer (not_and_or.mp hto)] at hdata
    exact Or.inl hdata

/-- Block packets are no stream packets. -/
theorem BlockHandled.leavesStream {around : Surroundings ε} {data : Bytes} {n n' : Node W S ε}
    {h : BlockPacketHeader} {payload : Bytes} {block block' : Block W} {decoded : Bool}
    {generated : List Bytes}
    (hhandled : BlockHandled around data n n' h payload block decoded block' generated)
    (htype : typeOf data = some .block) (channelId : UInt32) : LeavesStream channelId n n' := by
  obtain ⟨_, hstreams, _, hqueues⟩ := hhandled.effect
  refine ⟨stream_of_streams_eq hstreams channelId, ?_⟩
  intro peer packet hpacket hstream
  rcases hqueues.mem_queuedTo hpacket with hold | hnew
  · exact hold
  · have hblock : typeOf packet = some .block := by
      rcases List.mem_cons.mp hnew with rfl | hgenerated
      · exact htype
      · exact typeOf_of_generate hhandled.generated_ok packet hgenerated
    rw [hblock] at hstream
    cases hstream

/-- What is quiet leaves every stream alone. -/
theorem Quiet.leavesStream {n n' : Node W S ε} (h : Quiet n n') (channelId : UInt32) :
    LeavesStream channelId n n' := by
  refine ⟨stream_of_streams_eq h.streams channelId, ?_⟩
  intro peer data hdata _
  rw [h.queued] at hdata
  exact hdata

/-- A stream packet leaves the streams of other channels alone. -/
theorem StreamHandled.leavesStream {around : Surroundings ε} {data : Bytes} {n n' : Node W S ε}
    {h : StreamPacketHeader} {payload : Bytes} {d₁ d₂ : ContinuousStreamDecoder S}
    {s₁ : ContinuousStream S} {symbols : List Symbol} {e₁ : ContinuousStreamEncoder S}
    {acks : List (ε × Bytes)}
    (hhandled : StreamHandled around data n n' h payload d₁ d₂ s₁ symbols e₁ acks)
    {channelId : UInt32} (hchannel : h.channelId ≠ channelId) : LeavesStream channelId n n' := by
  obtain ⟨_, _, hstreams, _, hqueued⟩ := hhandled.effect
  refine ⟨stream_of_update_of_ne hstreams (Ne.symm hchannel), ?_⟩
  intro p packet hpacket _
  rcases hqueued channelId p with hsame | ⟨hc, _⟩
  · exact hsame ▸ hpacket
  · exact absurd hc.symm hchannel

/-- A step leaves the stream of a channel alone, or it handles a stream packet or an ack of
the channel. -/
theorem step_stream (channelId : UInt32) {n n' : Node W S ε} {e : Event ε} (h : Step n e n') :
    LeavesStream channelId n n' ∨
    (∃ around data peer hd payload d₁ d₂ s₁ symbols e₁ acks, e = .datagram around data peer ∧
      typeOf data = some .stream ∧ hd.channelId = channelId ∧
        StreamHandled around data n n' hd payload d₁ d₂ s₁ symbols e₁ acks) ∨
    ∃ message x,
      ContinuousStreamEncoder.processAck message (n.stream channelId).encoder = .ok () x ∧
      n'.stream channelId = { n.stream channelId with encoder := x } ∧
      ∀ peer, n'.queuedTo channelId peer = n.queuedTo channelId peer := by
  rcases step_cases h with hquiet | ⟨around, data, peer, rfl, hcases⟩
  · exact Or.inl (hquiet.leavesStream channelId)
  rcases hcases with ⟨htype, hd, payload, block, decoded, block', generated, hhandled⟩ |
    ⟨htype, hd, payload, d₁, d₂, s₁, symbols, e₁, acks, hhandled⟩ | ⟨_, hack⟩
  · exact Or.inl (hhandled.leavesStream htype channelId)
  · by_cases hchannel : hd.channelId = channelId
    · exact Or.inr (Or.inl ⟨around, data, peer, hd, payload, d₁, d₂, s₁, symbols, e₁, acks, rfl,
        htype, hchannel, hhandled⟩)
    · exact Or.inl (hhandled.leavesStream hchannel)
  · obtain ⟨hd, payload, x, _, _, hprocessed, rfl⟩ := handleStreamAck_ok hack
    by_cases hchannel : channelId = hd.channelId
    · subst hchannel
      exact Or.inr (Or.inr ⟨payload, x, hprocessed, stream_of_update_self rfl, fun _ => rfl⟩)
    · exact Or.inl ⟨stream_of_update_of_ne rfl hchannel, fun _ _ hdata _ => hdata⟩

end FecRelay.Node
