import FecRelay.Base.Run
import FecRelay.Chain
import FecRelay.Codec.Echo
import FecRelay.Relaying
import FecRelay.Steps

/-!
# A chain relays a stream faithfully

Whatever the network loses, repeats and delays, every node of a chain hands out a
prefix of what the publisher published, and what it queues under a packet index is
the published chunk with that number. Every hop is seen from the encoder before it,
which only ever adds and emits more.
-/

namespace FecRelay

open FecRelay.Base

variable {W : Wirehair} {S : Siamese} {ε : Type} [LinearOrder ε]

/-! ## Packets -/

/-- A stream packet of the channel with a symbol of an encoder that has added `added` and
emitted `emitted`. -/
def Genuine (channelId : UInt32) (added emitted : List Bytes) (data : Bytes) : Prop :=
  Node.typeOf data = some .stream → ∃ symbol : Symbol,
    data = Packet.makeStream symbol.1 channelId (UInt32.ofNat symbol.2) ∧
      Carries added emitted symbol

theorem Genuine.mono {channelId : UInt32} {added emitted added' emitted' : List Bytes}
    {data : Bytes} (h : Genuine channelId added emitted data) (hadded : added <+: added')
    (hemitted : emitted <+: emitted') : Genuine channelId added' emitted' data := by
  intro htype
  obtain ⟨symbol, heq, hcarries⟩ := h htype
  exact ⟨symbol, heq, hcarries.mono hadded hemitted⟩

/-- What a genuine stream packet is read as. -/
theorem Genuine.read {channelId : UInt32} {added emitted : List Bytes} {data : Bytes}
    (h : Genuine channelId added emitted data) (hcount : added.length < siamesePacketNumCount)
    (htype : Node.typeOf data = some .stream) : ∃ hd payload,
      Packet.header StreamPacketHeader data = .ok hd ∧
      Packet.payload StreamPacketHeader data = .ok payload ∧ hd.channelId = channelId ∧
      Carries added emitted (payload, hd.packetIndex.toNat) := by
  obtain ⟨symbol, rfl, hcarries⟩ := h htype
  have hindex : symbol.2 < 2 ^ 32 := by
    unfold Carries at hcarries
    split at hcarries
    · next hfec =>
        rw [hfec]
        decide
    · have := (List.getElem?_eq_some_iff.mp hcarries).1
      unfold siamesePacketNumCount at hcount
      omega
  refine ⟨_, _, Packet.header_ofHeader _ _, Packet.payload_ofHeader _ _, rfl, ?_⟩
  show Carries added emitted (symbol.1, (UInt32.ofNat symbol.2).toNat)
  rw [UInt32.toNat_ofNat_of_lt' hindex]
  exact hcarries

/-! ## A hop -/

namespace Node

/-- The stream of the channel relays what the encoder before has added and emitted, and
what was queued to a subscriber are symbols of the stream's own encoder. -/
structure Hop (channelId : UInt32) (added emitted : List Bytes) (n : Node W S ε) : Prop where
  relays : (n.stream channelId).Relays added emitted
  queued : ∀ peer, ∀ data ∈ n.queuedTo channelId peer, Genuine channelId
    (n.stream channelId).encoder.encoder.added (n.stream channelId).encoder.encoder.emitted data

variable {channelId : UInt32} {added emitted : List Bytes} {n n' : Node W S ε}

theorem hop_init : ({} : Node W S ε).Hop channelId added emitted where
  relays := ContinuousStream.relays_init
  queued _ _ hdata := absurd hdata List.not_mem_nil

theorem Hop.mono {added' emitted' : List Bytes} (h : n.Hop channelId added emitted)
    (hadded : added <+: added') (hemitted : emitted <+: emitted') :
    n.Hop channelId added' emitted' where
  relays := {
    follows := h.relays.follows.mono hadded hemitted
    sends := h.relays.sends }
  queued := h.queued

theorem Hop.of_leavesStream (h : n.Hop channelId added emitted)
    (hleaves : LeavesStream channelId n n') : n'.Hop channelId added emitted := by
  refine ⟨hleaves.stream_eq ▸ h.relays, ?_⟩
  intro peer data hdata htype
  rw [hleaves.stream_eq]
  exact h.queued peer data (hleaves.queued peer data hdata htype) htype

/-- An ack changes nothing that was added or emitted. -/
theorem Hop.of_ack {message : Bytes} {x : ContinuousStreamEncoder S}
    (h : n.Hop channelId added emitted)
    (hack : ContinuousStreamEncoder.processAck message (n.stream channelId).encoder = .ok () x)
    (hstream : n'.stream channelId = { n.stream channelId with encoder := x })
    (hqueued : ∀ peer, n'.queuedTo channelId peer = n.queuedTo channelId peer) :
    n'.Hop channelId added emitted ∧ (n.stream channelId).encoder.Advances x := by
  obtain ⟨hsends, hadvances⟩ := h.relays.sends.processAck hack
  refine ⟨⟨?_, ?_⟩, hadvances⟩
  · rw [hstream]
    exact ⟨h.relays.follows, hsends⟩
  · intro peer data hdata
    rw [hqueued] at hdata
    rw [hstream]
    exact (h.queued peer data hdata).mono hadvances.added hadvances.emitted

section codec

variable {encoder : S.Encoder} (hnumbers : S.Numbers) (hrecovers : S.Recovers)
  (hrun : S.EncoderRun added emitted encoder) (hcount : added.length < siamesePacketNumCount)
include hnumbers hrecovers hrun hcount

/-- What the handler of a stream packet does to the stream. -/
theorem StreamHandled.relays {around : Surroundings ε} {data : Bytes} {hd : StreamPacketHeader}
    {payload : Bytes} {d₁ d₂ : ContinuousStreamDecoder S} {s₁ : ContinuousStream S}
    {symbols : List Symbol} {e₁ : ContinuousStreamEncoder S} {acks : List (ε × Bytes)}
    (h : StreamHandled around data n n' hd payload d₁ d₂ s₁ symbols e₁ acks)
    (hrelays : (n.stream hd.channelId).Relays added emitted)
    (hsymbol : Carries added emitted (payload, hd.packetIndex.toNat)) :
    ({ s₁ with encoder := e₁ } : ContinuousStream S).Relays added emitted ∧
      (n.stream hd.channelId).encoder.Advances e₁ ∧
      ∀ symbol ∈ symbols, Carries e₁.encoder.added e₁.encoder.emitted symbol := by
  have hprocessed : d₁.Follows added emitted :=
    @ContinuousStreamDecoder.Follows.processSymbol _ _ _ _ _ _ hrecovers hrun hcount _
      (payload, hd.packetIndex.toNat) hrelays.follows hsymbol h.processed
  have hsame := ContinuousStreamDecoder.processSymbol_handedOut h.processed
  obtain ⟨ack, hack⟩ := h.acked
  obtain ⟨hacked, hsame'⟩ := hprocessed.generateAck hack
  have hstart : ({ n.stream hd.channelId with decoder := d₂ } : ContinuousStream S).Relays
      added emitted := by
    refine ⟨hacked, ?_⟩
    show (n.stream hd.channelId).encoder.Sends d₂.handedOut
    rw [hsame', hsame]
    exact hrelays.sends
  obtain ⟨hrelayed, hencoder⟩ := hstart.relayChunks hcount h.relayed
  have hlength : s₁.decoder.handedOut.length < siamesePacketNumCount :=
    lt_of_le_of_lt hrelayed.follows.handedOut.length_le hcount
  obtain ⟨hsends, hadvances, hcarries⟩ :=
    hrelayed.sends.drainSymbols hnumbers hlength _ h.drained
  refine ⟨⟨hrelayed.follows, hsends⟩, ⟨?_, ?_⟩, hcarries⟩
  · have hadded := hadvances.added
    rw [hencoder] at hadded
    exact hadded
  · have hemitted := hadvances.emitted
    rw [hencoder] at hemitted
    exact hemitted

/-- A genuine stream packet of the channel is handled. -/
theorem Hop.of_streamHandled {around : Surroundings ε} {data : Bytes} {hd : StreamPacketHeader}
    {payload : Bytes} {d₁ d₂ : ContinuousStreamDecoder S} {s₁ : ContinuousStream S}
    {symbols : List Symbol} {e₁ : ContinuousStreamEncoder S} {acks : List (ε × Bytes)}
    (h : n.Hop hd.channelId added emitted)
    (hhandled : StreamHandled around data n n' hd payload d₁ d₂ s₁ symbols e₁ acks)
    (htype : typeOf data = some .stream)
    (hgenuine : Genuine hd.channelId added emitted data) :
    n'.Hop hd.channelId added emitted ∧ (n.stream hd.channelId).encoder.Advances e₁ := by
  obtain ⟨hd', payload', hheader, hpayload, _, hcarries⟩ := hgenuine.read hcount htype
  rw [hhandled.header_ok] at hheader
  rw [hhandled.payload_ok] at hpayload
  cases hheader
  cases hpayload
  obtain ⟨hrelays, hadvances, hsymbols⟩ :=
    hhandled.relays hnumbers hrecovers hrun hcount h.relays hcarries
  obtain ⟨_, _, hstreams, _, hqueued⟩ := hhandled.effect
  have hstream : n'.stream hd.channelId = { s₁ with encoder := e₁ } := stream_of_update_self hstreams
  refine ⟨⟨?_, ?_⟩, hadvances⟩
  · rw [hstream]
    exact hrelays
  · intro peer packet hpacket
    rw [hstream]
    have hold : packet ∈ n.queuedTo hd.channelId peer →
        Genuine hd.channelId e₁.encoder.added e₁.encoder.emitted packet :=
      fun hpacket => (h.queued peer packet hpacket).mono hadvances.added hadvances.emitted
    rcases hqueued hd.channelId peer with hsame | ⟨_, hmore⟩
    · exact hold (hsame ▸ hpacket)
    · rw [hmore] at hpacket
      rcases List.mem_append.mp hpacket with hpacket | hpacket
      · exact hold hpacket
      · obtain ⟨symbol, hsymbol, rfl⟩ := List.mem_map.mp hpacket
        exact fun _ => ⟨symbol, rfl, hsymbols symbol hsymbol⟩

/-- A step of a node that is only given genuine stream packets of the channel. -/
theorem Hop.step {e : Event ε} (h : n.Hop channelId added emitted) (hstep : Step n e n')
    (harrives : ∀ around data peer, e = .datagram around data peer → typeOf data = some .stream →
      ∀ hd, Packet.header StreamPacketHeader data = .ok hd → hd.channelId = channelId →
        Genuine channelId added emitted data) :
    n'.Hop channelId added emitted ∧
      (n.stream channelId).encoder.Advances (n'.stream channelId).encoder := by
  rcases step_stream channelId hstep with hleaves |
    ⟨around, data, peer, hd, payload, d₁, d₂, s₁, symbols, e₁, acks, rfl, htype, rfl, hhandled⟩ |
    ⟨message, x, hack, hstream, hqueued⟩
  · rw [hleaves.stream_eq]
    exact ⟨h.of_leavesStream hleaves, .refl _⟩
  · rw [stream_of_update_self hhandled.effect.2.2.1]
    apply h.of_streamHandled hnumbers hrecovers hrun hcount hhandled htype
    exact harrives around data peer rfl htype hd hhandled.header_ok rfl
  · rw [hstream]
    exact h.of_ack hack hstream hqueued

end codec

end Node

/-! ## The chain -/

namespace Chain

variable {channelId : UInt32} {c c' : Chain W S ε}

/-- The encoder before node `k`. -/
def source (channelId : UInt32) (c : Chain W S ε) : Nat → ContinuousStreamEncoder S
  | 0 => c.publisher
  | k + 1 => ((c.node k).stream channelId).encoder

/-- The publisher sends what was published, and every node is a hop. -/
structure Intact (channelId : UInt32) (c : Chain W S ε) : Prop where
  publisher : c.publisher.Sends c.published
  sent : ∀ data ∈ c.sent,
    Genuine channelId c.publisher.encoder.added c.publisher.encoder.emitted data
  hop : ∀ k, (c.node k).Hop channelId
    (c.source channelId k).encoder.added (c.source channelId k).encoder.emitted

theorem intact_init : ({} : Chain W S ε).Intact channelId where
  publisher := ContinuousStreamEncoder.sends_init
  sent _ hdata := absurd hdata List.not_mem_nil
  hop _ := Node.hop_init

/-- What is on its way to a node are symbols of the encoder before it. -/
theorem Intact.inFlight (h : c.Intact channelId) {k : Nat} {data : Bytes}
    (hdata : c.InFlight channelId k data) :
    Genuine channelId (c.source channelId k).encoder.added
      (c.source channelId k).encoder.emitted data := by
  cases k with
  | zero => exact h.sent data hdata
  | succ k =>
      obtain ⟨peer, hdata⟩ := hdata
      exact (h.hop k).queued peer data hdata

theorem Intact.recorded (h : c.Intact channelId) (k : Nat) :
    (c.source channelId k).encoder.Recorded := by
  cases k with
  | zero => exact h.publisher.recorded
  | succ k => exact (h.hop k).relays.sends.recorded

/-- By induction on the place in the chain: a node adds what it handed out, which the encoder
before it has added. -/
theorem Intact.added_prefix (h : c.Intact channelId) (k : Nat) :
    (c.source channelId k).encoder.added <+: c.published := by
  induction k with
  | zero => exact h.publisher.added_prefix
  | succ k ih =>
      have hrelays := (h.hop k).relays
      exact (hrelays.sends.added_prefix.trans hrelays.follows.handedOut).trans ih

theorem Intact.relaysFaithfully (h : c.Intact channelId)
    (hcount : c.published.length < siamesePacketNumCount) : c.RelaysFaithfully channelId := by
  refine ⟨?_, ?_⟩
  · intro k
    exact (h.hop k).relays.follows.handedOut.trans (h.added_prefix k)
  · intro k peer data hdata htype
    have hprefix : (c.source channelId (k + 1)).encoder.added <+: c.published :=
      h.added_prefix (k + 1)
    obtain ⟨hd, payload, hheader, hpayload, hchannel, hcarries⟩ :=
      ((h.hop k).queued peer data hdata).read (lt_of_le_of_lt hprefix.length_le hcount) htype
    refine ⟨hd, payload, hheader, hpayload, hchannel, ?_⟩
    intro horiginal
    unfold Carries at hcarries
    rw [if_neg horiginal] at hcarries
    exact Reassembly.getElem?_of_prefix hprefix hcarries

/-! ### Steps -/

/-- The encoders of a chain only ever add and emit more. -/
theorem Intact.of_advances (h : c.Intact channelId)
    (hpublisher : c'.publisher.Sends c'.published)
    (hsent : ∀ data ∈ c'.sent,
      Genuine channelId c'.publisher.encoder.added c'.publisher.encoder.emitted data)
    (hadvances : ∀ k, (c.source channelId k).Advances (c'.source channelId k))
    (hnode : ∀ k, c'.node k = c.node k ∨ (c'.node k).Hop channelId
      (c.source channelId k).encoder.added (c.source channelId k).encoder.emitted) :
    c'.Intact channelId := by
  refine ⟨hpublisher, hsent, ?_⟩
  intro k
  apply Node.Hop.mono _ (hadvances k).added (hadvances k).emitted
  rcases hnode k with heq | hhop
  · rw [heq]
    exact h.hop k
  · exact hhop

/-- A step of the publisher. -/
theorem Intact.of_publisher (h : c.Intact channelId)
    (hpublisher : c'.publisher.Sends c'.published)
    (hsent : ∀ data ∈ c'.sent, data ∈ c.sent ∨
      Genuine channelId c'.publisher.encoder.added c'.publisher.encoder.emitted data)
    (hadvances : c.publisher.Advances c'.publisher) (hnode : c'.node = c.node) :
    c'.Intact channelId := by
  refine h.of_advances hpublisher ?_ ?_ fun k => Or.inl (congrFun hnode k)
  · intro data hdata
    rcases hsent data hdata with hold | hnew
    · exact (h.sent data hold).mono hadvances.added hadvances.emitted
    · exact hnew
  · intro k
    cases k with
    | zero => exact hadvances
    | succ k =>
        show ((c.node k).stream channelId).encoder.Advances ((c'.node k).stream channelId).encoder
        rw [hnode]
        exact .refl _

/-- A step of node `k`. -/
theorem Intact.withNode (h : c.Intact channelId) {k : Nat} {n : Node W S ε}
    (hhop : n.Hop channelId
      (c.source channelId k).encoder.added (c.source channelId k).encoder.emitted)
    (hadvances : ((c.node k).stream channelId).encoder.Advances (n.stream channelId).encoder) :
    (c.withNode k n).Intact channelId := by
  have hnode : ∀ j, (c.withNode k n).node j = if j = k then n else c.node j := by
    intro j
    show Function.update c.node k n j = _
    rw [Function.update_apply]
  refine h.of_advances h.publisher h.sent ?_ ?_
  · intro j
    cases j with
    | zero => exact .refl _
    | succ j =>
        show ((c.node j).stream channelId).encoder.Advances
          (((c.withNode k n).node j).stream channelId).encoder
        rw [hnode]
        by_cases hj : j = k
        · rw [if_pos hj, hj]
          exact hadvances
        · rw [if_neg hj]
          exact .refl _
  · intro j
    rw [hnode]
    by_cases hj : j = k
    · rw [if_pos hj, hj]
      exact Or.inr hhop
    · rw [if_neg hj]
      exact Or.inl rfl

theorem Step.published_prefix {e : Event ε} (hstep : Step channelId c e c') :
    c.published <+: c'.published := by
  rcases step_cases hstep with ⟨chunk, rfl⟩ | ⟨symbol, x, _, rfl⟩ | ⟨message, x, _, rfl⟩ |
    ⟨k, e, n, _, rfl, _⟩
  · exact List.prefix_append _ _
  all_goals exact List.prefix_refl _

theorem Intact.step (hnumbers : S.Numbers) (hrecovers : S.Recovers) {e : Event ε}
    (h : c.Intact channelId) (hcount : c.published.length < siamesePacketNumCount)
    (hstep : Step channelId c e c') : c'.Intact channelId := by
  rcases step_cases hstep with ⟨chunk, rfl⟩ | ⟨symbol, x, hget, rfl⟩ | ⟨message, x, hack, rfl⟩ |
    ⟨k, e, n, hnode, rfl, harrives⟩
  · refine h.of_publisher (h.publisher.queueChunk chunk) (fun _ hdata => Or.inl hdata) ?_ rfl
    exact ⟨List.prefix_refl _, List.prefix_refl _⟩
  · obtain ⟨hsends, hadvances, hcarries⟩ := h.publisher.getSymbol hnumbers hcount hget
    refine h.of_publisher hsends ?_ hadvances rfl
    intro data hdata
    rcases List.mem_append.mp hdata with hdata | hdata
    · exact Or.inl hdata
    · rw [List.mem_singleton.mp hdata]
      exact Or.inr fun _ => ⟨symbol, rfl, hcarries⟩
  · obtain ⟨hsends, hadvances⟩ := h.publisher.processAck hack
    exact h.of_publisher hsends (fun _ hdata => Or.inl hdata) hadvances rfl
  · have hshort := lt_of_le_of_lt (h.added_prefix k).length_le hcount
    obtain ⟨hhop, hadvances⟩ := (h.hop k).step hnumbers hrecovers (h.recorded k) hshort hnode
      fun around data peer heq htype hd hheader hchannel =>
        h.inFlight (harrives around data peer heq htype hd hheader hchannel)
    exact h.withNode hhop hadvances

/-- **Faithfulness.** In every run of a chain in which fewer chunks than there are packet
numbers were published, the stream is relayed faithfully. -/
theorem relays_faithfully (hnumbers : S.Numbers) (hrecovers : S.Recovers) (channelId : UInt32)
    {es : List (Event ε)} {c : Chain W S ε} (hrun : Run (Step channelId) {} es c)
    (hcount : c.published.length < siamesePacketNumCount) : c.RelaysFaithfully channelId := by
  have hintact : c.published.length < siamesePacketNumCount → c.Intact channelId :=
    Run.invariant (I := fun c => c.published.length < siamesePacketNumCount → c.Intact channelId)
      (fun s e t hs hstep ht =>
        have hshort := lt_of_le_of_lt hstep.published_prefix.length_le ht
        (hs hshort).step hnumbers hrecovers hshort hstep)
      hrun fun _ => intact_init
  exact (hintact hcount).relaysFaithfully hcount

/-! ## A run

Three chunks are published. The last one reaches the first node in a recovery symbol only, and
the chunks reach the second node last to first. Both nodes lose the first packet they are given. -/

/-- The chain once something happened, with channel 1. -/
def next (c : Chain replicating echoing Nat) (e : Event Nat) : Chain replicating echoing Nat :=
  Method.after (e.call 1 c)

/-- A datagram arrives at node `k`. -/
def arrival (k : Nat) (data : Bytes) (peer : Nat) : Event Nat :=
  .atNode k (.datagram { rounds := 6, clock := fun _ _ => 0 } data peer)

/-- The packets of the chunks, as the publisher and every node make them. -/
def chunkPacket : Nat → Bytes
  | 0 => Packet.makeStream [5] 1 0
  | 1 => Packet.makeStream [6] 1 1
  | _ => Packet.makeStream [7] 1 2

/-- The recovery symbol that the publisher makes after the chunks. -/
def recoveryPacket : Bytes :=
  Packet.makeStream [2, 0, 0, 0, 7] 1 (UInt32.ofNat packetIndexFec)

/-- Peer 7, the second node, subscribes to the first. -/
def relaying : List (Event Nat) :=
  [.publish [5], .publish [6], .publish [7], .send, .send, .send, .send,
    arrival 0 (Packet.makeControl [] actionSubscribe 1 2000) 7,
    arrival 0 (chunkPacket 1) 9, arrival 0 (chunkPacket 1) 9, arrival 0 (chunkPacket 0) 9,
    arrival 0 recoveryPacket 9, arrival 1 (chunkPacket 2) 6, arrival 1 (chunkPacket 2) 6,
    arrival 1 (chunkPacket 1) 6, arrival 1 (chunkPacket 0) 6]

/-- What arrives is a subscription, or on its way. The second node is peer 7 of the first. -/
def mayHappen (c : Chain replicating echoing Nat) : Event Nat → Bool
  | .atNode 0 (.datagram _ data _) =>
      decide (Node.typeOf data ≠ some .stream) || decide (data ∈ c.sent)
  | .atNode (k + 1) (.datagram _ data _) =>
      decide (Node.typeOf data ≠ some .stream) || decide (data ∈ (c.node k).queuedTo 1 7)
  | .atNode _ _ => false
  | _ => true

theorem enabled_of_mayHappen {c : Chain replicating echoing Nat} {e : Event Nat}
    (h : mayHappen c e = true) : e.Enabled 1 c := by
  cases e with
  | atNode k e =>
      cases e with
      | datagram around data peer =>
          refine ⟨trivial, fun around' data' peer' heq htype _ _ _ => ?_⟩
          cases heq
          cases k with
          | zero =>
              rcases (Bool.or_eq_true _ _).mp h with hother | hflight
              · exact absurd htype (of_decide_eq_true hother)
              · exact (of_decide_eq_true hflight : data ∈ c.sent)
          | succ k =>
              rcases (Bool.or_eq_true _ _).mp h with hother | hflight
              · exact absurd htype (of_decide_eq_true hother)
              · exact ⟨7, of_decide_eq_true hflight⟩
      | timerExpires _ _ _ => cases k <;> cases h
      | waitAborted _ _ => cases k <;> cases h
  | _ => trivial

theorem step_next (c : Chain replicating echoing Nat) (e : Event Nat)
    (h : (decide (Method.returned (e.call 1 c) = some ()) && mayHappen c e) = true) :
    Step 1 c e (next c e) := by
  obtain ⟨hreturned, henabled⟩ := Bool.and_eq_true_iff.mp h
  exact ⟨enabled_of_mayHappen henabled,
    Method.eq_ok_of_returned (of_decide_eq_true hreturned)⟩

theorem relays_faithfully_recovered :
    ((relaying.foldl next {}).node 1 |>.stream 1).decoder.handedOut = [[5], [6], [7]] ∧
      (relaying.foldl next {}).RelaysFaithfully 1 := by
  have hrun := Run.of_replays step_next (s := {}) (show Run.replays next _ {} relaying = true by
    decide +kernel)
  exact ⟨by decide +kernel, relays_faithfully Echo.numbers Echo.recovers 1 hrun (by decide +kernel)⟩

end Chain

end FecRelay
