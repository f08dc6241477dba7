import FecRelay.Theorems.StreamRelay

/-!
# Networks

Publishers, one for each channel, and a chain of nodes behind them. The publishers send
streams and blocks to the first node, and each node sends what it queues to its
subscribers to the next one. A stream or block packet that arrives at a node was sent by
the publishers or queued by the node before, at any earlier time and any number of times;
requests and acks may come from anywhere. `sent` and `sentBlocks` record the packets of
the publishers, oldest first. Seen from one channel, a network is a chain.
-/

namespace FecRelay

open FecRelay.Base

structure Network (W : Wirehair) (S : Siamese) (ε : Type) [LinearOrder ε] where
  publisher : UInt32 → ContinuousStreamEncoder S := fun _ => {}
  published : UInt32 → List Bytes := fun _ => []
  sent : UInt32 → List Bytes := fun _ => []
  sentBlocks : List Bytes := []
  node : Nat → Node W S ε := fun _ => {}

/-- The chain's node is left alone. -/
def Chain.Event.AtPublisher {ε : Type} : Chain.Event ε → Prop
  | .atNode _ _ => False
  | _ => True

namespace Network

variable {W : Wirehair} {S : Siamese} {ε : Type} [LinearOrder ε]

/-- The chain of a channel. -/
def chain (w : Network W S ε) (channelId : UInt32) : Chain W S ε where
  publisher := w.publisher channelId
  node := w.node
  published := w.published channelId
  sent := w.sent channelId

/-- The network once the publisher of a channel has done something. -/
def withChain (w : Network W S ε) (channelId : UInt32) (c : Chain W S ε) : Network W S ε :=
  { w with
    publisher := Function.update w.publisher channelId c.publisher
    published := Function.update w.published channelId c.published
    sent := Function.update w.sent channelId c.sent }

/-- The network once node `k` is `n`. -/
def withNode (w : Network W S ε) (k : Nat) (n : Node W S ε) : Network W S ε :=
  { w with node := Function.update w.node k n }

/-- The packets that may be on their way to node `k`. -/
def InFlight (w : Network W S ε) : Nat → Bytes → Prop
  | 0, data => (∃ channelId, data ∈ w.sent channelId) ∨ data ∈ w.sentBlocks
  | k + 1, data => ∃ channelId peer, data ∈ (w.node k).queuedTo channelId peer

/-- What happens to a network: the publisher of a channel publishes a chunk, sends a symbol
or is given an ack, a block is sent, or something happens to a node. -/
inductive Event (W : Wirehair) (ε : Type) where
  | atPublisher (channelId : UInt32) (e : Chain.Event ε)
  | sendBlock (channelId blockId : UInt32) (block : Block W)
  | atNode (k : Nat) (e : Node.Event ε)

/-- One event happens to the network, and nothing throws. -/
inductive Step : Network W S ε → Event W ε → Network W S ε → Prop
  | atPublisher {w : Network W S ε} {c : Chain W S ε} {channelId : UInt32} {e : Chain.Event ε} :
      e.AtPublisher → Chain.Step channelId (w.chain channelId) e c →
      Step w (.atPublisher channelId e) (w.withChain channelId c)
  | sendBlock {w : Network W S ε} {channelId blockId : UInt32} {block : Block W}
      {packets : List Bytes} :
      blockPacketRange block channelId blockId redundancy = .ok packets →
      Step w (.sendBlock channelId blockId block)
        { w with sentBlocks := w.sentBlocks ++ packets }
  | atNode {w : Network W S ε} {k : Nat} {e : Node.Event ε} {n : Node W S ε} :
      Node.Step (w.node k) e n →
      (∀ around data peer, e = .datagram around data peer →
        Node.typeOf data = some .stream ∨ Node.typeOf data = some .block → w.InFlight k data) →
      Step w (.atNode k e) (w.withNode k n)

/-! ## Chains of a network -/

section chains

variable {w w' : Network W S ε}

@[simp] theorem chain_withChain_self (w : Network W S ε) (channelId : UInt32)
    {c : Chain W S ε} (hnode : c.node = w.node) :
    (w.withChain channelId c).chain channelId = c := by
  unfold chain withChain
  simp [← hnode]

theorem chain_withChain_of_ne (w : Network W S ε) {channelId other : UInt32} (c : Chain W S ε)
    (h : other ≠ channelId) : (w.withChain channelId c).chain other = w.chain other := by
  unfold chain withChain
  simp [h]

@[simp] theorem chain_withNode (w : Network W S ε) (channelId : UInt32) (k : Nat)
    (n : Node W S ε) : (w.withNode k n).chain channelId = (w.chain channelId).withNode k n := rfl

/-- What happens at a publisher happens at no node. -/
theorem node_of_atPublisher {channelId : UInt32} {e : Chain.Event ε} {c c' : Chain W S ε}
    (he : e.AtPublisher) (h : Chain.Step channelId c e c') : c'.node = c.node := by
  have hresult := h.result
  cases e with
  | publish chunk =>
      cases hresult
      rfl
  | send =>
      obtain ⟨symbol, c₁, hsymbol, hsend⟩ := Method.bind_ok_iff.mp hresult
      obtain ⟨x, -, rfl⟩ := Method.zoom_ok_iff.mp hsymbol
      cases hsend
      rfl
  | ack message =>
      unfold Chain.Event.call Chain.onPublisher at hresult
      obtain ⟨x, -, rfl⟩ := Method.zoom_ok_iff.mp hresult
      rfl
  | atNode k e => exact he.elim

/-- Every chain of the network is intact, and nothing but blocks is sent as a block. -/
structure Intact (w : Network W S ε) : Prop where
  chain : ∀ channelId, (w.chain channelId).Intact channelId
  blocks : ∀ data ∈ w.sentBlocks, Node.typeOf data = some .block

theorem intact_init : ({} : Network W S ε).Intact where
  chain _ := Chain.intact_init
  blocks _ hdata := absurd hdata List.not_mem_nil

/-- A stream packet on its way is on its way in the chain of its channel. -/
theorem Intact.inFlight (h : w.Intact) {k : Nat} {data : Bytes} {hd : StreamPacketHeader}
    (hdata : w.InFlight k data) (htype : Node.typeOf data = some .stream)
    (hheader : Packet.header StreamPacketHeader data = .ok hd) :
    (w.chain hd.channelId).InFlight hd.channelId k data := by
  -- a genuine packet of a channel says that it is
  have hsame : ∀ {channelId : UInt32} {added emitted : List Bytes},
      Genuine channelId added emitted data → hd.channelId = channelId := by
    intro channelId added emitted hgenuine
    obtain ⟨symbol, rfl, -⟩ := hgenuine htype
    unfold Packet.makeStream at hheader
    rw [Packet.header_ofHeader] at hheader
    cases hheader
    rfl
  cases k with
  | zero =>
      rcases hdata with ⟨channelId, hsent⟩ | hblock
      · obtain rfl := hsame ((h.chain channelId).sent data hsent)
        exact hsent
      · rw [h.blocks data hblock] at htype
        cases htype
  | succ k =>
      obtain ⟨channelId, peer, hqueued⟩ := hdata
      obtain rfl := hsame (((h.chain channelId).hop k).queued peer data hqueued)
      exact ⟨peer, hqueued⟩

/-- What a step does is a step of the chain of a channel, or leaves it alone. -/
theorem Step.chain {e : Event W ε} (h : w.Intact) (hstep : Step w e w') (channelId : UInt32) :
    w'.chain channelId = w.chain channelId ∨
      ∃ e', Chain.Step channelId (w.chain channelId) e' (w'.chain channelId) := by
  cases hstep with
  | @atPublisher c other e he hchain =>
      have hnode := node_of_atPublisher he hchain
      by_cases hother : channelId = other
      · subst hother
        rw [chain_withChain_self w channelId hnode]
        exact Or.inr ⟨e, hchain⟩
      · exact Or.inl (chain_withChain_of_ne w c hother)
  | sendBlock _ => exact Or.inl rfl
  | @atNode k e n hnode harrives =>
      refine Or.inr ⟨.atNode k e, ⟨hnode.enabled, ?_⟩, ?_⟩
      · intro around data peer heq htype hd hheader hchannel
        subst hchannel
        exact h.inFlight (harrives around data peer heq (Or.inl htype)) htype hheader
      · show Chain.onNode k e.call (w.chain channelId) =
          .ok () ((w.chain channelId).withNode k n)
        unfold Chain.onNode
        exact Method.zoom_of_ok hnode.result

theorem Step.published_prefix {e : Event W ε} (hstep : Step w e w') (channelId : UInt32) :
    w.published channelId <+: w'.published channelId := by
  cases hstep with
  | @atPublisher c other e he hchain =>
      by_cases hother : channelId = other
      · subst hother
        show _ <+: Function.update w.published channelId c.published channelId
        rw [Function.update_self]
        exact hchain.published_prefix
      · show _ <+: Function.update w.published other c.published channelId
        rw [Function.update_of_ne hother]
  | sendBlock _ => exact List.prefix_refl _
  | atNode _ _ => exact List.prefix_refl _

theorem Intact.step (hnumbers : S.Numbers) (hrecovers : S.Recovers) {e : Event W ε}
    (h : w.Intact) (hcount : ∀ channelId, (w.published channelId).length < siamesePacketNumCount)
    (hstep : Step w e w') : w'.Intact := by
  refine ⟨fun channelId => ?_, ?_⟩
  · rcases hstep.chain h channelId with hsame | ⟨e', hchain⟩
    · rw [hsame]
      exact h.chain channelId
    · exact (h.chain channelId).step hnumbers hrecovers (hcount channelId) hchain
  · cases hstep with
    | atPublisher _ _ => exact h.blocks
    | sendBlock hpackets =>
        intro data hdata
        rcases List.mem_append.mp hdata with hdata | hdata
        · exact h.blocks data hdata
        · obtain ⟨symbol, rfl⟩ := blockPacketRange_mem hpackets data hdata
          exact Node.typeOf_makeBlock _ _ _ _ _
    | atNode _ _ => exact h.blocks

/-- Every run in which fewer chunks are published than there are packet numbers is intact. -/
theorem intact_of_run (hnumbers : S.Numbers) (hrecovers : S.Recovers) {es : List (Event W ε)}
    (hrun : Run Step {} es w)
    (hcount : ∀ channelId, (w.published channelId).length < siamesePacketNumCount) : w.Intact := by
  induction hrun with
  | nil => exact intact_init
  | @snoc w₁ w₂ es e _ hstep ih =>
      have hbefore : ∀ channelId, (w₁.published channelId).length < siamesePacketNumCount :=
        fun channelId =>
          lt_of_le_of_lt (hstep.published_prefix channelId).length_le (hcount channelId)
      exact (ih hbefore).step hnumbers hrecovers hbefore hstep

end chains

end Network

end FecRelay
