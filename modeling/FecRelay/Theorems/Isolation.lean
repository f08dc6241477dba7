import FecRelay.Base.TwoRuns
import FecRelay.Steps
import FecRelay.Theorems.Division

/-!
# Channels are isolated from each other

All that two channels share is the count of packets that decides which ones are dropped.
Once it is told of each packet whether it was dropped, what happens on a channel is decided
by the packets of that channel alone: what is queued to its subscribers, which acks are sent,
its subscriptions, its blocks and its stream, whatever happens on other channels in between.
-/

namespace FecRelay.Node

open FecRelay.Base

variable {W : Wirehair} {S : Siamese} {ε : Type} [LinearOrder ε]

/-! ## What a channel is made of -/

/-- The channel a packet is for, as its handler reads it. -/
def channelOf (data : Bytes) : Option UInt32 :=
  match typeOf data with
  | none => none
  | some .control => if word data 2 = actionSubscribe then some (word data 3) else none
  | some _ => some (word data 2)

/-- The acks that were sent for a channel, with the peers they were sent to. -/
def acksFor (channelId : UInt32) (n : Node W S ε) : List (ε × Bytes) :=
  n.sentAcks.filter fun ack =>
    (PacketLayout.view ack.2 : StreamAckPacketHeader).channelId = channelId

/-- Two nodes are alike on a channel, with subscriptions that are alike in the sense of `Q`. -/
structure SameOn (Q : OrderedMap ε AsioReceiver → OrderedMap ε AsioReceiver → Prop)
    (channelId : UInt32) (n n' : Node W S ε) : Prop where
  subscriptions : Q (n.subscriptions channelId) (n'.subscriptions channelId)
  blocks : ∀ blockId, n.blocks (channelId, blockId) = n'.blocks (channelId, blockId)
  streams : n.streams channelId = n'.streams channelId
  acks : n.acksFor channelId = n'.acksFor channelId

/-- The same subscribers, at the same rates, with the same packets queued so far. -/
def SameRecords (m m' : OrderedMap ε AsioReceiver) : Prop :=
  ∀ peer, (m.find? peer).map (fun r => (r.queue.shaper.kbps, r.queued)) =
    (m'.find? peer).map fun r => (r.queue.shaper.kbps, r.queued)

theorem sameRecords_equivalence : Equivalence (SameRecords (ε := ε)) where
  refl _ _ := rfl
  symm h peer := (h peer).symm
  trans h h' peer := (h peer).trans (h' peer)

section equivalence

variable {Q : OrderedMap ε AsioReceiver → OrderedMap ε AsioReceiver → Prop} {c : UInt32}

theorem sameOn_equivalence (hQ : Equivalence Q) :
    Equivalence (SameOn (W := W) (S := S) Q c) where
  refl _ := ⟨hQ.refl _, fun _ => rfl, rfl, rfl⟩
  symm h := ⟨hQ.symm h.subscriptions, fun id => (h.blocks id).symm, h.streams.symm, h.acks.symm⟩
  trans h h' := ⟨hQ.trans h.subscriptions h'.subscriptions,
    fun id => (h.blocks id).trans (h'.blocks id), h.streams.trans h'.streams,
    h.acks.trans h'.acks⟩

end equivalence

/-! ## Other channels -/

section other

variable {c c' : UInt32}

theorem same_refl (n : Node W S ε) : SameOn Eq c n n := ⟨rfl, fun _ => rfl, rfl, rfl⟩

theorem same_trans {n n' n'' : Node W S ε} (h : SameOn Eq c n n') (h' : SameOn Eq c n' n'') :
    SameOn Eq c n n'' :=
  (sameOn_equivalence ⟨fun _ => rfl, Eq.symm, Eq.trans⟩).trans h h'

theorem keeps_bind {α β : Type} {m : Method Fault (Node W S ε) α}
    {f : α → Method Fault (Node W S ε) β} (hm : Method.Keeps (SameOn Eq c) m)
    (hf : ∀ a, Method.Keeps (SameOn Eq c) (f a)) : Method.Keeps (SameOn Eq c) (m >>= f) :=
  .bind (fun _ _ _ => same_trans) hm hf

theorem keeps_onSubscriptions (hother : c ≠ c') {α : Type}
    (m : Method Fault (OrderedMap ε AsioReceiver) α) :
    Method.Keeps (SameOn Eq c') (onSubscriptions c m : Method Fault (Node W S ε) α) := by
  apply Method.Keeps.zoom
  intro n x
  exact ⟨(Function.update_of_ne hother.symm x n.subscriptions).symm, fun _ => rfl, rfl, rfl⟩

theorem keeps_onStream (hother : c ≠ c') {α : Type} (m : Method Fault (ContinuousStream S) α) :
    Method.Keeps (SameOn Eq c') (onStream c m : Method Fault (Node W S ε) α) := by
  apply Method.Keeps.zoom
  intro n x
  exact ⟨rfl, fun _ => rfl, (Function.update_of_ne hother.symm (some x) n.streams).symm, rfl⟩

theorem keeps_onBlock (hother : c ≠ c') (blockId : UInt32) (block : Block W) {α : Type}
    (m : Method Fault (Block W) α) :
    Method.Keeps (SameOn Eq c') (onBlock (c, blockId) block m : Method Fault (Node W S ε) α) := by
  apply Method.Keeps.zoom
  intro n x
  refine ⟨rfl, fun id => ?_, rfl, rfl⟩
  have hkey : (c', id) ≠ (c, blockId) := fun h => hother (congrArg Prod.fst h).symm
  exact (Function.update_of_ne hkey (some x) n.blocks).symm

theorem keeps_emplaceBlock {h : BlockPacketHeader} (hother : h.channelId ≠ c') :
    Method.Keeps (SameOn Eq c') (emplaceBlock (h.channelId, h.blockId) h.blockSize :
      Method Fault (Node W S ε) (Block W)) := by
  intro n n' block hemplace
  obtain ⟨-, rfl⟩ := emplaceBlock_ok hemplace
  refine ⟨rfl, fun id => ?_, rfl, rfl⟩
  have hkey : (c', id) ≠ (h.channelId, h.blockId) := fun h => hother (congrArg Prod.fst h).symm
  exact (Function.update_of_ne hkey (some block) n.blocks).symm

theorem keeps_nextIsLost :
    Method.Keeps (SameOn Eq c') (nextIsLost : Method Fault (Node W S ε) Bool) := by
  intro n n' lost h
  obtain ⟨-, -, rfl⟩ := nextIsLost_ok_iff.mp h
  exact ⟨rfl, fun _ => rfl, rfl, rfl⟩

theorem channelId_makeStreamAck (ack : Bytes) (c : UInt32) :
    (PacketLayout.view (Packet.makeStreamAck ack c) : StreamAckPacketHeader).channelId = c :=
  congrArg StreamAckPacketHeader.channelId (PacketLayout.view_fields
    (⟨⟨0, PacketType.streamAck.code⟩, c⟩ : StreamAckPacketHeader) ack)

theorem keeps_sendBytes (hother : c ≠ c') (peer : ε) (ack : Bytes) :
    Method.Keeps (SameOn Eq c') (sendBytes peer (Packet.makeStreamAck ack c) :
      Method Fault (Node W S ε) Unit) := by
  intro n n' a h
  cases h
  refine ⟨rfl, fun _ => rfl, rfl, ?_⟩
  unfold acksFor
  simp [channelId_makeStreamAck, hother]

/-! ### Handlers of packets of other channels -/

theorem keeps_handleBlock {data : Bytes} (hother : word data 2 ≠ c')
    (around : Surroundings ε) :
    Method.Keeps (SameOn Eq c') (handleBlock around data : Method Fault (Node W S ε) Unit) := by
  intro n n' _ h
  unfold handleBlock at h
  obtain ⟨hd, hheader, h⟩ := Method.lift_bind_ok_iff.mp h
  obtain ⟨-, rfl⟩ := Packet.header_ok_iff.mp hheader
  refine keeps_bind keeps_nextIsLost (fun lost => ?_) h
  cases lost with
  | true => exact .pure same_refl ()
  | false =>
      refine keeps_bind (keeps_emplaceBlock hother) fun block => ?_
      refine keeps_bind (.lift same_refl _) fun payload => ?_
      refine keeps_bind (keeps_onBlock hother _ block _) fun result => ?_
      refine keeps_bind (.lift same_refl _) fun generated => ?_
      exact keeps_onSubscriptions hother _

theorem keeps_relayOn (hother : c ≠ c') (around : Surroundings ε) :
    Method.Keeps (SameOn Eq c') (relayOn around c : Method Fault (Node W S ε) Unit) := by
  refine keeps_bind (keeps_onStream hother _) fun _ => ?_
  refine keeps_bind (keeps_onStream hother _) fun symbols => ?_
  split
  · exact keeps_onSubscriptions hother _
  · exact .pure same_refl ()

theorem keeps_handleStream {data : Bytes} (hother : word data 2 ≠ c')
    (around : Surroundings ε) (peer : ε) :
    Method.Keeps (SameOn Eq c')
      (handleStream around data peer : Method Fault (Node W S ε) Unit) := by
  intro n n' _ h
  rw [handleStream_eq] at h
  obtain ⟨hd, hheader, h⟩ := Method.lift_bind_ok_iff.mp h
  obtain ⟨-, rfl⟩ := Packet.header_ok_iff.mp hheader
  refine keeps_bind keeps_nextIsLost (fun lost => ?_) h
  cases lost with
  | true => exact .pure same_refl ()
  | false =>
      refine keeps_bind (.lift same_refl _) fun payload => ?_
      refine keeps_bind (keeps_onStream hother _) fun _ => ?_
      refine keeps_bind (keeps_onStream hother _) fun ack => ?_
      split
      · exact keeps_bind (keeps_sendBytes hother peer ack) fun _ => keeps_relayOn hother around
      · exact keeps_relayOn hother around

theorem keeps_handleStreamAck {data : Bytes} (hother : word data 2 ≠ c') :
    Method.Keeps (SameOn Eq c') (handleStreamAck data : Method Fault (Node W S ε) Unit) := by
  intro n n' _ h
  unfold handleStreamAck at h
  obtain ⟨hd, hheader, h⟩ := Method.lift_bind_ok_iff.mp h
  obtain ⟨-, rfl⟩ := Packet.header_ok_iff.mp hheader
  exact keeps_bind (.lift same_refl _) (fun payload => keeps_onStream hother _) h

theorem keeps_handleControl {data : Bytes}
    (hother : word data 2 = actionSubscribe → word data 3 ≠ c') (peer : ε) :
    Method.Keeps (SameOn Eq c') (handleControl data peer : Method Fault (Node W S ε) Unit) := by
  intro n n' _ h
  obtain ⟨-, rfl⟩ | ⟨hsubscribe, -, rfl⟩ := handleControl_cases h
  · exact same_refl n'
  · exact ⟨(Function.update_of_ne (hother hsubscribe).symm _ n.subscriptions).symm,
      fun _ => rfl, rfl, rfl⟩

/-- A packet of another channel leaves the channel as it is. -/
theorem same_of_handlePacket {around : Surroundings ε} {data : Bytes} {peer : ε}
    (hc : channelOf data ≠ some c') {n n' : Node W S ε}
    (h : handlePacket around data peer n = .ok () n') : SameOn Eq c' n n' := by
  unfold channelOf at hc
  rcases handlePacket_ok h with ⟨htype, hcall⟩ | ⟨htype, hcall⟩ | ⟨htype, hcall⟩ | ⟨htype, hcall⟩
  · refine keeps_handleControl (fun hsubscribe => ?_) peer hcall
    simpa [htype, hsubscribe] using hc
  · exact keeps_handleBlock (by simpa [htype] using hc) around hcall
  · exact keeps_handleStream (by simpa [htype] using hc) around peer hcall
  · exact keeps_handleStreamAck (by simpa [htype] using hc) hcall

end other

/-! ## The same channel of two nodes -/

/-- The receivers of a channel once a peer has subscribed. -/
def resubscribed (peer : ε) (kbps : UInt32) (m : OrderedMap ε AsioReceiver) :
    OrderedMap ε AsioReceiver :=
  m.insertOrAssign peer (match m.find? peer with
    | none => AsioReceiver.make kbps.toNat
    | some r => r.moveAssign (AsioReceiver.make kbps.toNat))

/-- What is done to subscriptions that are alike leaves them alike. -/
structure Likeness (Q : OrderedMap ε AsioReceiver → OrderedMap ε AsioReceiver → Prop)
    (around around' : Surroundings ε) : Prop where
  queue : ∀ packets, Method.Related Q Q
    (OrderedMap.forValues fun peer => queuePackets (around.clock peer) packets)
    (OrderedMap.forValues fun peer => queuePackets (around'.clock peer) packets)
  subscribe : ∀ peer kbps ⦃m m'⦄, Q m m' → Q (resubscribed peer kbps m) (resubscribed peer kbps m')

section same

variable {Q : OrderedMap ε AsioReceiver → OrderedMap ε AsioReceiver → Prop} {c : UInt32}

/-- Alike on a channel, and agreed about whether the next packet is dropped. -/
def SameLoss (Q : OrderedMap ε AsioReceiver → OrderedMap ε AsioReceiver → Prop) (c : UInt32)
    (n n' : Node W S ε) : Prop :=
  SameOn Q c n n' ∧ (n.packetSeq % loseEvery = 0 ↔ n'.packetSeq % loseEvery = 0)

theorem related_nextIsLost : Method.Related (SameLoss Q c) (SameOn Q c)
    (nextIsLost : Method Fault (Node W S ε) Bool) nextIsLost := by
  rintro n n' t t' lost lost' ⟨hsame, hloss⟩ h h'
  obtain ⟨-, rfl, rfl⟩ := nextIsLost_ok_iff.mp h
  obtain ⟨-, rfl, rfl⟩ := nextIsLost_ok_iff.mp h'
  exact ⟨decide_eq_decide.mpr hloss, hsame.subscriptions, hsame.blocks, hsame.streams, hsame.acks⟩

theorem related_onStream {α : Type} {m m' : Method Fault (ContinuousStream S) α}
    (hm : Method.Related Eq Eq m m') : Method.Related (SameOn Q c) (SameOn Q c)
      (onStream c m : Method Fault (Node W S ε) α) (onStream c m') := by
  apply Method.Related.zoom_eq hm
  · intro n n' h
    unfold stream
    rw [h.streams]
  · intro n n' x h
    refine ⟨h.subscriptions, h.blocks, ?_, h.acks⟩
    simp

theorem related_onBlock (blockId : UInt32) (block : Block W) {α : Type}
    (m : Method Fault (Block W) α) : Method.Related (SameOn Q c) (SameOn Q c)
      (onBlock (c, blockId) block m : Method Fault (Node W S ε) α)
      (onBlock (c, blockId) block m) := by
  apply Method.Related.zoom_eq (.of_eq m) (fun _ _ _ => rfl)
  intro n n' x h
  refine ⟨h.subscriptions, fun id => ?_, h.streams, h.acks⟩
  by_cases hid : id = blockId
  · subst hid
    simp
  · have hkey : (c, id) ≠ (c, blockId) := fun h => hid (congrArg Prod.snd h)
    simp [Function.update_of_ne hkey, h.blocks id]

theorem related_emplaceBlock (h : BlockPacketHeader) :
    Method.Related (SameOn Q h.channelId) (SameOn Q h.channelId)
      (emplaceBlock (h.channelId, h.blockId) h.blockSize : Method Fault (Node W S ε) (Block W))
      (emplaceBlock (h.channelId, h.blockId) h.blockSize) := by
  intro n n' t t' block block' hsame hcall hcall'
  obtain ⟨hblock, rfl⟩ := emplaceBlock_ok hcall
  obtain ⟨hblock', rfl⟩ := emplaceBlock_ok hcall'
  obtain rfl : block = block' := by
    unfold BlockFor at hblock hblock'
    rw [hsame.blocks] at hblock
    rcases hblock with hknown | ⟨hnone, hmade⟩ <;>
      rcases hblock' with hknown' | ⟨hnone', hmade'⟩ <;> simp_all
  refine ⟨rfl, hsame.subscriptions, fun id => ?_, hsame.streams, hsame.acks⟩
  by_cases hid : id = h.blockId
  · subst hid
    simp
  · have hkey : (h.channelId, id) ≠ (h.channelId, h.blockId) := fun h => hid (congrArg Prod.snd h)
    simp [Function.update_of_ne hkey, hsame.blocks id]

theorem related_queueToAll {around around' : Surroundings ε} (hlike : Likeness Q around around')
    (packets : List Bytes) : Method.Related (SameOn Q c) (SameOn Q c)
      (queueToAll around c packets : Method Fault (Node W S ε) Unit)
      (queueToAll around' c packets) := by
  apply Method.Related.zoom (hlike.queue packets)
  · exact fun _ _ h => h.subscriptions
  · intro n n' x x' h hx
    refine ⟨?_, h.blocks, h.streams, h.acks⟩
    simpa using hx

theorem related_sendBytes (peer : ε) (bytes : Bytes) :
    Method.Related (SameOn Q c) (SameOn Q c)
      (sendBytes peer bytes : Method Fault (Node W S ε) Unit) (sendBytes peer bytes) := by
  apply Method.Related.modify
  intro n n' h
  refine ⟨h.subscriptions, h.blocks, h.streams, ?_⟩
  have hacks := h.acks
  unfold acksFor at hacks ⊢
  rw [List.filter_append, List.filter_append, hacks]

/-! ### Handlers of packets of the channel -/

theorem related_handleBlock {around around' : Surroundings ε} (hlike : Likeness Q around around')
    (data : Bytes) : Method.Related (SameLoss Q (word data 2)) (SameOn Q (word data 2))
      (handleBlock around data : Method Fault (Node W S ε) Unit) (handleBlock around' data) := by
  refine .lift_bind fun h hheader => ?_
  obtain ⟨-, rfl⟩ := Packet.header_ok_iff.mp hheader
  refine .bind related_nextIsLost fun lost => .ite (.pure ()) ?_
  refine .bind (related_emplaceBlock (PacketLayout.view data)) fun block => ?_
  refine .bind (.lift _) fun payload => ?_
  refine .bind (related_onBlock _ block _) fun result => ?_
  exact .bind (.lift _) fun generated => related_queueToAll hlike _

theorem related_relayOn {around around' : Surroundings ε} (hlike : Likeness Q around around') :
    Method.Related (SameOn Q c) (SameOn Q c)
      (relayOn around c : Method Fault (Node W S ε) Unit) (relayOn around' c) := by
  refine .bind (related_onStream (.of_eq _)) fun _ => ?_
  refine .bind (related_onStream (.zoom_of_eq (ContinuousStreamEncoder.related_drainSymbols _ _ _))) fun symbols => ?_
  exact .ite (related_queueToAll hlike _) (.pure ())

theorem related_handleStream {around around' : Surroundings ε}
    (hlike : Likeness Q around around') (data : Bytes) (peer : ε) :
    Method.Related (SameLoss Q (word data 2)) (SameOn Q (word data 2))
      (handleStream around data peer : Method Fault (Node W S ε) Unit)
      (handleStream around' data peer) := by
  rw [handleStream_eq, handleStream_eq]
  refine .lift_bind fun h hheader => ?_
  obtain ⟨-, rfl⟩ := Packet.header_ok_iff.mp hheader
  refine .bind related_nextIsLost fun lost => .ite (.pure ()) ?_
  refine .bind (.lift _) fun payload => ?_
  refine .bind (related_onStream (.zoom_of_eq (ContinuousStreamDecoder.related_processSymbol _ _ _ _))) fun _ => ?_
  refine .bind (related_onStream (.of_eq _)) fun ack => .ite ?_ (related_relayOn hlike)
  exact .bind (related_sendBytes peer _) fun _ => related_relayOn hlike

theorem related_handleStreamAck (data : Bytes) :
    Method.Related (SameOn Q (word data 2)) (SameOn Q (word data 2))
      (handleStreamAck data : Method Fault (Node W S ε) Unit) (handleStreamAck data) := by
  refine .lift_bind fun h hheader => ?_
  obtain ⟨-, rfl⟩ := Packet.header_ok_iff.mp hheader
  exact .bind (.lift _) fun payload => related_onStream (.of_eq _)

theorem related_handleControl {around around' : Surroundings ε}
    (hlike : Likeness Q around around') {data : Bytes}
    (hsubscribe : word data 2 = actionSubscribe) (peer : ε) :
    Method.Related (SameOn Q (word data 3)) (SameOn Q (word data 3))
      (handleControl data peer : Method Fault (Node W S ε) Unit) (handleControl data peer) := by
  intro n n' t t' _ _ hsame h h'
  obtain ⟨hnot, -⟩ | ⟨-, -, rfl⟩ := handleControl_cases h
  · exact absurd hsubscribe hnot
  obtain ⟨hnot, -⟩ | ⟨-, -, rfl⟩ := handleControl_cases h'
  · exact absurd hsubscribe hnot
  refine ⟨rfl, ?_, hsame.blocks, hsame.streams, hsame.acks⟩
  have hQ := hlike.subscribe peer (word data 4) hsame.subscriptions
  show Q (Function.update n.subscriptions (word data 3) _ (word data 3))
    (Function.update n'.subscriptions (word data 3) _ (word data 3))
  rw [Function.update_self, Function.update_self]
  exact hQ

/-- What a packet of the channel does is decided by the channel, and by whether the packet
is dropped if it is one that may be. -/
theorem related_handlePacket {around around' : Surroundings ε}
    (hlike : Likeness Q around around') {data : Bytes} (hc : channelOf data = some c) (peer : ε)
    {n n' t t' : Node W S ε} (hsame : SameOn Q c n n')
    (hloss : typeOf data = some .block ∨ typeOf data = some .stream →
      (n.packetSeq % loseEvery = 0 ↔ n'.packetSeq % loseEvery = 0))
    (h : handlePacket around data peer n = .ok () t)
    (h' : handlePacket around' data peer n' = .ok () t') : SameOn Q c t t' := by
  obtain ⟨type, htype, hcall⟩ := handlerOf_ok h
  obtain ⟨type', htype', hcall'⟩ := handlerOf_ok h'
  obtain rfl : type' = type := by simpa [htype] using htype'.symm
  unfold channelOf at hc
  rw [htype] at hc hloss
  cases type' with
  | control =>
      obtain ⟨hsubscribe, rfl⟩ : word data 2 = actionSubscribe ∧ word data 3 = c := by
        simpa using hc
      exact (related_handleControl hlike hsubscribe peer hsame hcall hcall').2
  | block =>
      obtain rfl : word data 2 = c := by simpa using hc
      exact (related_handleBlock hlike data ⟨hsame, hloss (by simp)⟩ hcall hcall').2
  | stream =>
      obtain rfl : word data 2 = c := by simpa using hc
      exact (related_handleStream hlike data peer ⟨hsame, hloss (by simp)⟩ hcall hcall').2
  | streamAck =>
      obtain rfl : word data 2 = c := by simpa using hc
      exact (related_handleStreamAck data hsame hcall hcall').2

end same

/-! ## Subscriptions that are alike -/

/-- Equal subscriptions stay equal if the clock reads the same. -/
theorem likeness_eq (around : Surroundings ε) : Likeness Eq around around where
  queue _ := .of_eq _
  subscribe peer kbps _ _ h := congrArg (resubscribed peer kbps) h

theorem queuePackets_kbps {clock : Nat → Int} {packets : List Bytes} {r r' : AsioReceiver}
    (h : queuePackets clock packets r = .ok () r') :
    r'.queue.shaper.kbps = r.queue.shaper.kbps := by
  unfold queuePackets at h
  generalize packets.zipIdx = xs at h
  induction xs generalizing r with
  | nil =>
      obtain ⟨-, rfl⟩ := Method.pure_ok_iff.mp h
      rfl
  | cons x xs ih =>
      obtain ⟨_, r₁, hx, hrest⟩ := Method.bind_ok_iff.mp h
      have hkbps := AsioReceiver.queuePacket_kbps (clock x.2) x.1 r
      have hx : AsioReceiver.queuePacket (clock x.2) x.1 r = .ok () r₁ := hx
      rw [hx] at hkbps
      exact (ih hrest).trans hkbps

/-- What a subscriber was sent depends on the clock, what was queued to it does not. -/
theorem likeness_records (around around' : Surroundings ε) :
    Likeness SameRecords around around' where
  queue packets := by
    intro m m' t t' _ _ hsame h h'
    refine ⟨rfl, fun peer => ?_⟩
    have hpeer := hsame peer
    rcases OrderedMap.visited_of_forValues h peer with ⟨hm, ht⟩ | ⟨r, u, hm, hcall, ht⟩ <;>
      rcases OrderedMap.visited_of_forValues h' peer with ⟨hm', ht'⟩ | ⟨r', u', hm', hcall', ht'⟩
    · rw [ht, ht']
    · simp [hm, hm'] at hpeer
    · simp [hm, hm'] at hpeer
    · -- the same packets behind the same packets
      obtain ⟨hkbps, hqueued⟩ : r.queue.shaper.kbps = r'.queue.shaper.kbps ∧
          r.queued = r'.queued := by simpa [hm, hm'] using hpeer
      simp [ht, ht', queuePackets_ok hcall, queuePackets_ok hcall', queuePackets_kbps hcall,
        queuePackets_kbps hcall', hkbps, hqueued]
  subscribe peer kbps m m' hsame p := by
    have hpeer := hsame peer
    unfold resubscribed
    rw [OrderedMap.find?_insertOrAssign, OrderedMap.find?_insertOrAssign]
    by_cases hp : peer = p
    · rw [if_pos hp, if_pos hp]
      cases hm : m.find? peer <;> cases hm' : m'.find? peer <;>
        simp_all [AsioReceiver.moveAssign, AsioReceiver.make]
    · rw [if_neg hp, if_neg hp]
      exact hsame p

/-! ## Runs -/

/-- Whether a datagram is dropped on purpose. -/
def Event.dropped (n : Node W S ε) : Event ε → Bool
  | .datagram _ data _ =>
      (decide (typeOf data = some .block) || decide (typeOf data = some .stream)) &&
        decide (n.packetSeq % loseEvery = 0)
  | _ => false

/-- A step, and what became of the test for artificial loss. -/
structure TracedStep (n : Node W S ε) (x : Event ε × Bool) (n' : Node W S ε) : Prop where
  step : Step n x.1 n'
  outcome : x.2 = x.1.dropped n

/-- A packet that arrived on a channel, the peer it came from and whether it was dropped. -/
def packetOn (channelId : UInt32) : Event ε × Bool → Option (Bytes × ε × Bool)
  | (.datagram _ data peer, lost) =>
      if channelOf data = some channelId then some (data, peer, lost) else none
  | _ => none

/-- An event of a channel, with the times its handler reads, and whether it was dropped. -/
def eventOn (channelId : UInt32) (x : Event ε × Bool) : Option (Event ε × Bool) :=
  match x.1 with
  | .datagram _ data _ => if channelOf data = some channelId then some x else none
  | .timerExpires c _ _ => if c = channelId then some x else none
  | .waitAborted c _ => if c = channelId then some x else none

section runs

variable {c : UInt32}

theorem SameOn.of_eq {Q : OrderedMap ε AsioReceiver → OrderedMap ε AsioReceiver → Prop}
    (hQ : Equivalence Q) {n n' : Node W S ε} (h : SameOn Eq c n n') : SameOn Q c n n' where
  subscriptions := h.subscriptions ▸ hQ.refl _
  blocks := h.blocks
  streams := h.streams
  acks := h.acks

/-- Two events that are dropped alike are told alike by the test for artificial loss. -/
theorem loss_iff_of_dropped {around around' : Surroundings ε} {data : Bytes} {peer peer' : ε}
    {n n' : Node W S ε} (h : Event.dropped n (.datagram around data peer) =
      Event.dropped n' (.datagram around' data peer'))
    (htype : typeOf data = some .block ∨ typeOf data = some .stream) :
    n.packetSeq % loseEvery = 0 ↔ n'.packetSeq % loseEvery = 0 := by
  rcases htype with htype | htype <;> simpa [Event.dropped, htype] using h

/-- The end of a wait changes no record of a channel. -/
theorem records_of_onReceiver {c' : UInt32} {peer : ε} {m : Method Fault AsioReceiver Unit}
    (hm : ∀ r, (Method.after (m r)).queue.shaper.kbps = r.queue.shaper.kbps ∧
      (Method.after (m r)).queued = r.queued) {n n' : Node W S ε}
    (h : onReceiver c' peer m n = .ok () n') : SameOn SameRecords c n n' := by
  rcases onReceiver_ok h with ⟨-, rfl⟩ | ⟨r, r', hr, hcall, rfl⟩
  · exact (sameOn_equivalence sameRecords_equivalence).refl n'
  · refine ⟨fun p => ?_, fun _ => rfl, rfl, rfl⟩
    show _ = ((Function.update n.subscriptions c' _ c).find? p).map _
    by_cases hc : c = c'
    · subst hc
      have hrecord := hm r
      rw [hcall] at hrecord
      have hr : (n.subscriptions c).find? peer = some r := hr
      rw [Function.update_self, OrderedMap.find?_insertOrAssign]
      by_cases hp : peer = p
      · subst hp
        simp_all
      · rw [if_neg hp]
    · rw [Function.update_of_ne hc]

theorem unwinding_packets (c : UInt32) :
    Unwinding (TracedStep (W := W) (S := S) (ε := ε)) (SameOn SameRecords c) (packetOn c) where
  equivalence := sameOn_equivalence sameRecords_equivalence
  silent n x n' hstep hunseen := by
    obtain ⟨e, lost⟩ := x
    have hresult := hstep.step.result
    cases e with
    | datagram around data peer =>
        have hc : channelOf data ≠ some c := by simpa [packetOn] using hunseen
        exact (same_of_handlePacket hc hresult).of_eq sameRecords_equivalence
    | timerExpires c' peer now =>
        exact records_of_onReceiver
          (fun r => ⟨AsioReceiver.waitDone_kbps now r, AsioReceiver.waitDone_queued now r⟩) hresult
    | waitAborted c' peer => exact records_of_onReceiver (fun _ => ⟨rfl, rfl⟩) hresult
  consistent n x t n' x' t' o hstep hstep' hseen hseen' hsame := by
    obtain ⟨e, lost⟩ := x
    obtain ⟨e', lost'⟩ := x'
    cases e with
    | timerExpires => simp [packetOn] at hseen
    | waitAborted => simp [packetOn] at hseen
    | datagram around data peer =>
      cases e' with
      | timerExpires => simp [packetOn] at hseen'
      | waitAborted => simp [packetOn] at hseen'
      | datagram around' data' peer' =>
        obtain ⟨hc, ho⟩ : channelOf data = some c ∧ (data, peer, lost) = o := by
          simpa [packetOn] using hseen
        obtain ⟨-, ho'⟩ : channelOf data' = some c ∧ (data', peer', lost') = o := by
          simpa [packetOn] using hseen'
        rw [← ho'] at ho
        cases ho
        have hdropped := hstep.outcome.symm.trans hstep'.outcome
        exact related_handlePacket (likeness_records around around') hc peer hsame
          (loss_iff_of_dropped hdropped) hstep.step.result hstep'.step.result

/-- The end of a wait on another channel. -/
theorem same_of_onReceiver {c' : UInt32} (hother : c' ≠ c) {peer : ε}
    {m : Method Fault AsioReceiver Unit} {n n' : Node W S ε}
    (h : onReceiver c' peer m n = .ok () n') : SameOn Eq c n n' := by
  rcases onReceiver_ok h with ⟨-, rfl⟩ | ⟨r, r', -, -, rfl⟩
  · exact same_refl n'
  · exact ⟨(Function.update_of_ne hother.symm _ n.subscriptions).symm, fun _ => rfl, rfl, rfl⟩

/-- The end of a wait on the channel. -/
theorem related_onReceiver (peer : ε) (m : Method Fault AsioReceiver Unit) :
    Method.Related (SameOn Eq c) (SameOn Eq c)
      (onReceiver c peer m : Method Fault (Node W S ε) Unit) (onReceiver c peer m) := by
  intro n n' t t' _ _ hsame h h'
  refine ⟨rfl, ?_⟩
  have hsubscriptions := hsame.subscriptions
  have hreceiver : n.receiver c peer = n'.receiver c peer := by
    unfold receiver
    rw [hsubscriptions]
  rcases onReceiver_ok h with ⟨hnone, rfl⟩ | ⟨r, u, hr, hcall, rfl⟩ <;>
    rcases onReceiver_ok h' with ⟨hnone', rfl⟩ | ⟨r', u', hr', hcall', rfl⟩
  · exact hsame
  · simp_all
  · simp_all
  · obtain rfl : r = r' := by simp_all
    obtain rfl : u = u' := by simp_all
    refine ⟨?_, hsame.blocks, hsame.streams, hsame.acks⟩
    show Function.update n.subscriptions c _ c = Function.update n'.subscriptions c _ c
    rw [Function.update_self, Function.update_self, hsubscriptions]

theorem unwinding_events (c : UInt32) :
    Unwinding (TracedStep (W := W) (S := S) (ε := ε)) (SameOn Eq c) (eventOn c) where
  equivalence := sameOn_equivalence ⟨fun _ => rfl, Eq.symm, Eq.trans⟩
  silent n x n' hstep hunseen := by
    obtain ⟨e, lost⟩ := x
    have hresult := hstep.step.result
    cases e with
    | datagram around data peer =>
        exact same_of_handlePacket (by simpa [eventOn] using hunseen) hresult
    | timerExpires c' peer now =>
        exact same_of_onReceiver (by simpa [eventOn] using hunseen) hresult
    | waitAborted c' peer => exact same_of_onReceiver (by simpa [eventOn] using hunseen) hresult
  consistent n x t n' x' t' o hstep hstep' hseen hseen' hsame := by
    have hx : ∀ {y}, eventOn c y = some o → y = o := by
      intro y hy
      unfold eventOn at hy
      split at hy <;> simp_all
    obtain rfl := hx hseen
    obtain rfl := hx hseen'
    obtain ⟨e, lost⟩ := x'
    have hresult := hstep.step.result
    have hresult' := hstep'.step.result
    cases e with
    | datagram around data peer =>
        have hdropped := hstep.outcome.symm.trans hstep'.outcome
        exact related_handlePacket (likeness_eq around) (by simpa [eventOn] using hseen) peer hsame
          (loss_iff_of_dropped hdropped) hresult hresult'
    | timerExpires c' peer now =>
        obtain rfl : c' = c := by simpa [eventOn] using hseen
        exact (related_onReceiver peer _ hsame hresult hresult').2
    | waitAborted c' peer =>
        obtain rfl : c' = c := by simpa [eventOn] using hseen
        exact (related_onReceiver peer _ hsame hresult hresult').2

end runs

/-- **Channels are isolated.** If a channel saw the same packets with the same losses in two
runs, then the same packets were queued to each of its receivers and the same acks sent for
it, and it has the same subscribers, blocks and stream; the receivers themselves are the
same if the times they read are. -/
theorem channel_decided_by_its_packets {n n₁ n₂ : Node W S ε} {xs₁ xs₂ : List (Event ε × Bool)}
    (hrun₁ : Run TracedStep n xs₁ n₁) (hrun₂ : Run TracedStep n xs₂ n₂) (c : UInt32)
    (hpackets : xs₁.filterMap (packetOn c) = xs₂.filterMap (packetOn c)) :
    (∀ peer, n₁.queuedTo c peer = n₂.queuedTo c peer) ∧ n₁.acksFor c = n₂.acksFor c ∧
      SameRecords (n₁.subscriptions c) (n₂.subscriptions c) ∧
      (∀ blockId, n₁.blocks (c, blockId) = n₂.blocks (c, blockId)) ∧
      n₁.streams c = n₂.streams c ∧
      (xs₁.filterMap (eventOn c) = xs₂.filterMap (eventOn c) →
        n₁.subscriptions c = n₂.subscriptions c) := by
  have hsame : SameOn SameRecords c n₁ n₂ := (unwinding_packets c).run hrun₁ hrun₂
    ((sameOn_equivalence sameRecords_equivalence).refl n) hpackets
  refine ⟨fun peer => ?_, hsame.acks, hsame.subscriptions, hsame.blocks, hsame.streams,
    fun hevents => ?_⟩
  · have hqueued := congrArg (Option.map Prod.snd) (hsame.subscriptions peer)
    rw [Option.map_map, Option.map_map] at hqueued
    exact congrArg (Option.getD · []) hqueued
  · exact ((unwinding_events c).run hrun₁ hrun₂ (same_refl n) hevents).subscriptions

/-- A subscription to a channel, which arrives from peer 7. -/
def subscribes (c : UInt32) : Event Nat × Bool :=
  (.datagram { rounds := 0, clock := fun _ _ => 0 } (Packet.makeControl [] actionSubscribe c 2000) 7,
    false)

theorem tracedStep_subscribes (c : UInt32) (n : Node replicating echoing Nat) :
    TracedStep n (subscribes c) (subscribe c 7 2000 n) where
  step := ⟨trivial, handlePacket_subscribe (isSubscribe_makeControl [] c 2000) _ 7 n⟩
  outcome := by
    have htype : typeOf (Packet.makeControl [] actionSubscribe c 2000) = some .control := by
      show PacketType.ofCode (word (storeWords
        [0, PacketType.control.code, actionSubscribe, c, 2000] ++ []) 1) = _
      rw [word_storeWords _ _ 1 (by simp)]
      rfl
    simp [subscribes, Event.dropped, htype]

/-- A packet arrives from peer 9. -/
def arrives (data : Bytes) (lost : Bool) : Event Nat × Bool :=
  (.datagram { rounds := 2, clock := fun _ _ => 0 } data 9, lost)

/-- The two symbols of a block on channel 1, and two chunks and an ack on channel 2 -/
def blockPackets : List Bytes :=
  [Packet.makeBlock (List.replicate maxBlockPacketSize 5) 1 1 (.ofNat (maxBlockPacketSize + 1)) 0,
    Packet.makeBlock [6] 1 1 (.ofNat (maxBlockPacketSize + 1)) 1]

def chunkPackets : List Bytes := [Packet.makeStream [5] 2 0, Packet.makeStream [6] 2 1]

def ackPacket : Bytes := Packet.makeStreamAck [1] 2

/-- The first chunk is lost and arrives again. -/
def inTurn : List (Event Nat × Bool) :=
  [subscribes 1, subscribes 2, arrives (chunkPackets.getD 0 []) true,
    arrives (chunkPackets.getD 0 []) false, arrives ackPacket false,
    arrives (chunkPackets.getD 1 []) false, arrives (blockPackets.getD 0 []) false,
    arrives (blockPackets.getD 1 []) false]

/-- What arrives on channel 1 arrives in between. -/
def interleaved : List (Event Nat × Bool) :=
  [subscribes 2, arrives (chunkPackets.getD 0 []) true, subscribes 1,
    arrives (blockPackets.getD 0 []) false, arrives (chunkPackets.getD 0 []) false,
    arrives (blockPackets.getD 1 []) false, arrives ackPacket false,
    arrives (chunkPackets.getD 1 []) false]

/-- The node once something happened. -/
def next (n : Node replicating echoing Nat) (x : Event Nat × Bool) : Node replicating echoing Nat :=
  Method.after (x.1.call n)

/-- A datagram whose handler returns, and is lost if it is said to be. -/
def arrivesAs (n : Node replicating echoing Nat) : Event Nat × Bool → Bool
  | (.datagram around data peer, lost) =>
      decide (Method.returned ((Event.datagram around data peer).call n) = some ()) &&
        decide (lost = (Event.datagram around data peer).dropped n)
  | _ => false

theorem step_next (n : Node replicating echoing Nat) (x : Event Nat × Bool)
    (h : arrivesAs n x = true) : TracedStep n x (next n x) := by
  obtain ⟨e, lost⟩ := x
  cases e with
  | datagram around data peer =>
      obtain ⟨hreturned, houtcome⟩ := Bool.and_eq_true_iff.mp h
      exact ⟨⟨trivial, Method.eq_ok_of_returned (of_decide_eq_true hreturned)⟩,
        of_decide_eq_true houtcome⟩
  | timerExpires _ _ _ => cases h
  | waitAborted _ _ => cases h

/-- A block on channel 1, and chunks and an ack on channel 2, one after the other and
interleaved. -/
theorem channel_decided_by_its_packets_interleaved : ∃ n₁ n₂,
    Run TracedStep ({} : Node replicating echoing Nat) inTurn n₁ ∧
    Run TracedStep ({} : Node replicating echoing Nat) interleaved n₂ ∧
    (n₁.queuedTo 1 7).length = 5 ∧ (n₁.queuedTo 2 7).length = 2 ∧ (n₁.acksFor 2).length = 2 ∧
    ∀ c ∈ [1, 2], (∀ peer, n₁.queuedTo c peer = n₂.queuedTo c peer) ∧
      n₁.acksFor c = n₂.acksFor c ∧ (∀ blockId, n₁.blocks (c, blockId) = n₂.blocks (c, blockId)) ∧
      n₁.streams c = n₂.streams c ∧ n₁.subscriptions c = n₂.subscriptions c := by
  have hfirst := Run.of_replays step_next (show Run.replays next arrivesAs {} inTurn = true by
    decide +kernel)
  have hsecond := Run.of_replays step_next (show Run.replays next arrivesAs {} interleaved = true by
    decide +kernel)
  refine ⟨_, _, hfirst, hsecond, by decide +kernel, by decide +kernel, by decide +kernel,
    fun c hc => ?_⟩
  have hon : inTurn.filterMap (packetOn c) = interleaved.filterMap (packetOn c) ∧
      inTurn.filterMap (eventOn c) = interleaved.filterMap (eventOn c) := by
    rcases List.mem_pair.mp hc with rfl | rfl
    · exact ⟨by decide +kernel, rfl⟩
    · exact ⟨by decide +kernel, rfl⟩
  obtain ⟨hqueued, hacks, -, hblocks, hstreams, hsubscriptions⟩ :=
    channel_decided_by_its_packets hfirst hsecond c hon.1
  exact ⟨hqueued, hacks, hblocks, hstreams, hsubscriptions hon.2⟩

end FecRelay.Node
