import FecRelay.Net

/-!
# Chains of nodes

A publisher sends the stream of a channel to the first of many nodes, and every node
passes it on to the next one, which has subscribed to it. Nothing is assumed of the
network: a packet that was ever queued to a subscriber may arrive at the next node at
any time, any number of times or never, and whatever is not a stream packet of the
channel may come from anywhere. `published` records the chunks passed to `queue_chunk`
and `sent` the packets made from the publisher's symbols, oldest first.
-/

namespace FecRelay

open FecRelay.Base

structure Chain (W : Wirehair) (S : Siamese) (ε : Type) [LinearOrder ε] where
  publisher : ContinuousStreamEncoder S := {}
  node : Nat → Node W S ε := fun _ => {}
  published : List Bytes := []
  sent : List Bytes := []

namespace Chain

variable {W : Wirehair} {S : Siamese} {ε : Type} [LinearOrder ε]

/-- A call on the publisher's encoder. -/
def onPublisher {α : Type} (m : Method Fault (ContinuousStreamEncoder S) α) :
    Method Fault (Chain W S ε) α :=
  Method.zoom publisher (fun x c => { c with publisher := x }) m

/-- The chain once node `k` is `n`. -/
def withNode (c : Chain W S ε) (k : Nat) (n : Node W S ε) : Chain W S ε :=
  { c with node := Function.update c.node k n }

/-- A call on node `k`. -/
def onNode {α : Type} (k : Nat) (m : Method Fault (Node W S ε) α) :
    Method Fault (Chain W S ε) α :=
  Method.zoom (fun c => c.node k) (fun n c => c.withNode k n) m

/-- What happens to a chain: the publisher passes a chunk to `queue_chunk`, makes a packet
from the next symbol or is given the message of an ack, or something happens to a node. -/
inductive Event (ε : Type) where
  | publish (chunk : Bytes)
  | send
  | ack (message : Bytes)
  | atNode (k : Nat) (e : Node.Event ε)

def Event.call (channelId : UInt32) : Event ε → Method Fault (Chain W S ε) Unit
  | .publish chunk => do
      modify fun c => { c with published := c.published ++ [chunk] }
      onPublisher (ContinuousStreamEncoder.queueChunk chunk)
  | .send => do
      let symbol ← onPublisher (ContinuousStreamEncoder.getSymbol fecRatio)
      let packet := Packet.makeStream symbol.1 channelId (UInt32.ofNat symbol.2)
      modify fun c => { c with sent := c.sent ++ [packet] }
  | .ack message => onPublisher (ContinuousStreamEncoder.processAck message)
  | .atNode k e => onNode k e.call

/-- The packets that may be on their way to node `k`. -/
def InFlight (channelId : UInt32) (c : Chain W S ε) : Nat → Bytes → Prop
  | 0, data => data ∈ c.sent
  | k + 1, data => ∃ peer, data ∈ (c.node k).queuedTo channelId peer

/-- Only a stream packet that is on its way can arrive on the channel. -/
def Event.Enabled (channelId : UInt32) (c : Chain W S ε) : Event ε → Prop
  | .atNode k e => e.Enabled (c.node k) ∧ ∀ around data peer, e = .datagram around data peer →
      Node.typeOf data = some .stream →
      ∀ h, Packet.header StreamPacketHeader data = .ok h → h.channelId = channelId →
        c.InFlight channelId k data
  | _ => True

/-- One event happens to the chain, and nothing throws. -/
structure Step (channelId : UInt32) (c : Chain W S ε) (e : Event ε) (c' : Chain W S ε) :
    Prop where
  enabled : e.Enabled channelId c
  result : e.call channelId c = .ok () c'

/-- What a step can do, with what was called on the way. -/
theorem step_cases {channelId : UInt32} {c c' : Chain W S ε} {e : Event ε}
    (h : Step channelId c e c') :
    (∃ chunk, c' = { c with
      publisher := { c.publisher with pending := c.publisher.pending ++ [chunk] }
      published := c.published ++ [chunk] }) ∨
    (∃ symbol x, ContinuousStreamEncoder.getSymbol fecRatio c.publisher = .ok symbol x ∧
      c' = { c with
        publisher := x
        sent := c.sent ++ [Packet.makeStream symbol.1 channelId (UInt32.ofNat symbol.2)] }) ∨
    (∃ message x, ContinuousStreamEncoder.processAck message c.publisher = .ok () x ∧
      c' = { c with publisher := x }) ∨
    ∃ k e n, Node.Step (c.node k) e n ∧ c' = c.withNode k n ∧
      ∀ around data peer, e = .datagram around data peer → Node.typeOf data = some .stream →
        ∀ h, Packet.header StreamPacketHeader data = .ok h → h.channelId = channelId →
          c.InFlight channelId k data := by
  have hresult := h.result
  cases e with
  | publish chunk =>
      cases hresult
      exact Or.inl ⟨chunk, rfl⟩
  | send =>
      obtain ⟨symbol, c₁, hsymbol, hsend⟩ := Method.bind_ok_iff.mp hresult
      obtain ⟨x, hget, rfl⟩ := Method.zoom_ok_iff.mp hsymbol
      cases hsend
      exact Or.inr (Or.inl ⟨symbol, x, hget, rfl⟩)
  | ack message =>
      unfold Event.call onPublisher at hresult
      obtain ⟨x, hack, rfl⟩ := Method.zoom_ok_iff.mp hresult
      exact Or.inr (Or.inr (Or.inl ⟨message, x, hack, rfl⟩))
  | atNode k e =>
      unfold Event.call onNode at hresult
      obtain ⟨n, hcall, rfl⟩ := Method.zoom_ok_iff.mp hresult
      obtain ⟨henabled, harrives⟩ := h.enabled
      exact Or.inr (Or.inr (Or.inr ⟨k, e, n, ⟨henabled, hcall⟩, rfl, harrives⟩))

/-- Every node has handed out a prefix of what was published, and every stream packet that
a node queued to a subscriber of the channel carries a recovery symbol, or the published
chunk with its packet index. -/
structure RelaysFaithfully (channelId : UInt32) (c : Chain W S ε) : Prop where
  handedOut : ∀ k, ((c.node k).stream channelId).decoder.handedOut <+: c.published
  queued : ∀ k peer, ∀ data ∈ (c.node k).queuedTo channelId peer,
    Node.typeOf data = some .stream → ∃ h payload,
      Packet.header StreamPacketHeader data = .ok h ∧
      Packet.payload StreamPacketHeader data = .ok payload ∧ h.channelId = channelId ∧
      (h.packetIndex.toNat ≠ packetIndexFec →
        c.published[h.packetIndex.toNat]? = some payload)

end Chain

end FecRelay
