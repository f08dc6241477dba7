import FecRelay.Asio
import FecRelay.Base.OrderedMap
import FecRelay.Stream
import FecRelay.Wire

/-!
# Nodes

A `Node` keeps, for each channel, a receiver for every subscriber and the state of
the channel's stream, and every block that it has seen a packet of. `handle_packet`
is given a datagram and the peer it came from. Every tenth block or stream packet
is dropped on purpose. `sentAcks` records the acks that were sent back, oldest
first; no branch reads it.
-/

namespace FecRelay

open FecRelay.Base

/-- `LOSE_EVERY` -/
def loseEvery : Int := 10

structure Node (W : Wirehair) (S : Siamese) (ε : Type) [LinearOrder ε] where
  packetSeq : Int := 0
  subscriptions : UInt32 → OrderedMap ε AsioReceiver := fun _ => .empty
  blocks : UInt32 × UInt32 → Option (Block W) := fun _ => none
  streams : UInt32 → Option (ContinuousStream S) := fun _ => none
  sentAcks : List (ε × Bytes) := []

/-- What a handler meets besides the datagram: how many rounds the loops over a codec
are watched for, and what the clock reads when packet `i` is queued to a peer. -/
structure Surroundings (ε : Type) where
  rounds : Nat
  clock : ε → Nat → Int

namespace Node

variable {W : Wirehair} {S : Siamese} {ε : Type} [LinearOrder ε]

/-! ## Parts of a node -/

/-- A call on `m_subscriptions[channelId]`. -/
def onSubscriptions {α : Type} (channelId : UInt32)
    (m : Method Fault (OrderedMap ε AsioReceiver) α) : Method Fault (Node W S ε) α :=
  Method.zoom (fun n => n.subscriptions channelId)
    (fun x n => { n with subscriptions := Function.update n.subscriptions channelId x }) m

/-- The stream of a channel, or a new one that is made if it is not there. -/
def stream (n : Node W S ε) (channelId : UInt32) : ContinuousStream S :=
  (n.streams channelId).getD {}

/-- A call on `m_streams.try_emplace(channelId)`. -/
def onStream {α : Type} (channelId : UInt32) (m : Method Fault (ContinuousStream S) α) :
    Method Fault (Node W S ε) α :=
  Method.zoom (fun n => n.stream channelId)
    (fun x n => { n with streams := Function.update n.streams channelId (some x) }) m

/-- `m_blocks.try_emplace(key, blockSize)`: the block with that key. -/
def emplaceBlock (key : UInt32 × UInt32) (blockSize : UInt32) :
    Method Fault (Node W S ε) (Block W) := do
  let n ← get
  match n.blocks key with
  | some block => pure block
  | none =>
      let block ← Method.lift (Block.ofSize blockSize.toNat)
      modify fun n => { n with blocks := Function.update n.blocks key (some block) }
      pure block

/-- A call on the block with that key, which is `block`. -/
def onBlock {α : Type} (key : UInt32 × UInt32) (block : Block W)
    (m : Method Fault (Block W) α) : Method Fault (Node W S ε) α :=
  Method.zoom (fun _ => block)
    (fun x n => { n with blocks := Function.update n.blocks key (some x) }) m

/-- `packet_seq++ % LOSE_EVERY == 0` -/
def nextIsLost : Method Fault (Node W S ε) Bool := do
  let n ← get
  if n.packetSeq = intMax then
    throw .signedOverflow
  set { n with packetSeq := n.packetSeq + 1 }
  pure (decide (n.packetSeq % loseEvery = 0))

/-- `send_bytes(peer, bytes)` -/
def sendBytes (peer : ε) (bytes : Bytes) : Method Fault (Node W S ε) Unit :=
  modify fun n => { n with sentAcks := n.sentAcks ++ [(peer, bytes)] }

/-- The loop that queues packets to one receiver. -/
def queuePackets (clock : Nat → Int) (packets : List Bytes) : Method Fault AsioReceiver Unit :=
  Method.forEach (fun x => AsioReceiver.queuePacket (clock x.2) x.1) packets.zipIdx

/-- The loop that queues packets to all receivers of a channel. -/
def queueToAll (around : Surroundings ε) (channelId : UInt32) (packets : List Bytes) :
    Method Fault (Node W S ε) Unit :=
  onSubscriptions channelId
    (OrderedMap.forValues fun peer => queuePackets (around.clock peer) packets)

/-- The node once the receiver of a subscriber is `r`. -/
def withReceiver (n : Node W S ε) (channelId : UInt32) (peer : ε) (r : AsioReceiver) :
    Node W S ε :=
  { n with
    subscriptions := Function.update n.subscriptions channelId
      ((n.subscriptions channelId).insertOrAssign peer r) }

/-- `m_subscriptions[channelId].insert_or_assign(peer, make_receiver(peer, kbps))` -/
def subscribe (channelId : UInt32) (peer : ε) (kbps : UInt32) (n : Node W S ε) : Node W S ε :=
  let receiver := AsioReceiver.make kbps.toNat
  n.withReceiver channelId peer (match (n.subscriptions channelId).find? peer with
    | none => receiver
    | some r => r.moveAssign receiver)

/-! ## Handlers -/

/-- A word of a header that the datagram may be too short for. -/
def readWord (data : Bytes) (i : Nat) : Checked UInt32 :=
  if 4 * (i + 1) ≤ data.length then .ok (word data i) else .error .outOfBounds

/-- `CONTROL`: the header is cast without a check of the size. -/
def handleControl (data : Bytes) (peer : ε) : Method Fault (Node W S ε) Unit := do
  let action ← Method.lift (readWord data 2)
  if action = actionSubscribe then
    let channelId ← Method.lift (readWord data 3)
    let kbps ← Method.lift (readWord data 4)
    modify (subscribe channelId peer kbps)

/-- The packets a decoded block is passed on in. -/
def generate (h : BlockPacketHeader) (decoded : Bool) (block : Block W) : Checked (List Bytes) :=
  if decoded then blockPacketRange block h.channelId h.blockId redundancy else .ok []

/-- `BLOCK` -/
def handleBlock (around : Surroundings ε) (data : Bytes) : Method Fault (Node W S ε) Unit := do
  let h ← Method.lift (Packet.header BlockPacketHeader data)
  let lost ← nextIsLost
  if lost then
    pure ()
  else
    let key := (h.channelId, h.blockId)
    let block ← emplaceBlock key h.blockSize
    let payload ← Method.lift (Packet.payload BlockPacketHeader data)
    let (decoded, block) ← onBlock key block (do
      let decoded ← Block.processSymbol payload h.packetIndex.toNat
      let block ← get
      pure (decoded, block))
    let generated ← Method.lift (generate h decoded block)
    queueToAll around h.channelId (data :: generated)

/-- `STREAM` -/
def handleStream (around : Surroundings ε) (data : Bytes) (peer : ε) :
    Method Fault (Node W S ε) Unit := do
  let h ← Method.lift (Packet.header StreamPacketHeader data)
  let lost ← nextIsLost
  if lost then
    pure ()
  else
    let payload ← Method.lift (Packet.payload StreamPacketHeader data)
    onStream h.channelId (ContinuousStream.onDecoder
      (ContinuousStreamDecoder.processSymbol around.rounds payload h.packetIndex.toNat))
    let ack ← onStream h.channelId
      (ContinuousStream.onDecoder ContinuousStreamDecoder.generateAck)
    if !ack.isEmpty then
      sendBytes peer (Packet.makeStreamAck ack h.channelId)
    onStream h.channelId ContinuousStream.relayChunks
    let symbols ← onStream h.channelId
      (ContinuousStream.onEncoder (ContinuousStreamEncoder.drainSymbols fecRatio around.rounds))
    let packets := symbols.map fun symbol =>
      Packet.makeStream symbol.1 h.channelId (UInt32.ofNat symbol.2)
    if !packets.isEmpty then
      queueToAll around h.channelId packets

/-- `STREAM_ACK` -/
def handleStreamAck (data : Bytes) : Method Fault (Node W S ε) Unit := do
  let h ← Method.lift (Packet.header StreamAckPacketHeader data)
  let payload ← Method.lift (Packet.payload StreamAckPacketHeader data)
  onStream h.channelId
    (ContinuousStream.onEncoder (ContinuousStreamEncoder.processAck payload))

/-- `handle_packet(p, peer)` -/
def handlePacket (around : Surroundings ε) (data : Bytes) (peer : ε) :
    Method Fault (Node W S ε) Unit := do
  let h ← Method.lift (Packet.header PacketHeader data)
  match PacketType.ofCode h.packetType with
  | some .control => handleControl data peer
  | some .block => handleBlock around data
  | some .stream => handleStream around data peer
  | some .streamAck => handleStreamAck data
  | none => throw (.runtimeError "Bad packet type!")

/-- The type a datagram says it has. -/
def typeOf (data : Bytes) : Option PacketType :=
  PacketType.ofCode (PacketLayout.view data : PacketHeader).packetType

/-! ## Subscribers -/

/-- The receiver of a subscriber of a channel. -/
def receiver (n : Node W S ε) (channelId : UInt32) (peer : ε) : Option AsioReceiver :=
  (n.subscriptions channelId).find? peer

def Subscribed (n : Node W S ε) (channelId : UInt32) (peer : ε) : Prop :=
  (n.receiver channelId peer).isSome = true

/-- The packets ever queued to a subscriber, also before it subscribed anew. -/
def queuedTo (n : Node W S ε) (channelId : UInt32) (peer : ε) : List Bytes :=
  ((n.receiver channelId peer).map AsioReceiver.queued).getD []

/-! ## Steps -/

/-- What happens to a node: a datagram arrives from a peer, or a wait of a receiver's
timer ends, because its time has come or because it was cancelled. -/
inductive Event (ε : Type) where
  | datagram (around : Surroundings ε) (data : Bytes) (peer : ε)
  | timerExpires (channelId : UInt32) (peer : ε) (now : Int)
  | waitAborted (channelId : UInt32) (peer : ε)

/-- A call on the receiver of a subscriber. -/
def onReceiver (channelId : UInt32) (peer : ε) (m : Method Fault AsioReceiver Unit) :
    Method Fault (Node W S ε) Unit := fun n =>
  match n.receiver channelId peer with
  | none => .ok () n
  | some r => Method.zoom (fun _ => r) (fun r n => n.withReceiver channelId peer r) m n

def Event.call : Event ε → Method Fault (Node W S ε) Unit
  | .datagram around data peer => handlePacket around data peer
  | .timerExpires channelId peer now => onReceiver channelId peer (AsioReceiver.waitDone now)
  | .waitAborted channelId peer => onReceiver channelId peer AsioReceiver.waitAborted

/-- Only a wait that is outstanding, or cancelled, can end. -/
def Event.Enabled (n : Node W S ε) : Event ε → Prop
  | .datagram _ _ _ => True
  | .timerExpires channelId peer _ => ∃ r, n.receiver channelId peer = some r ∧ 0 < r.timer.waits
  | .waitAborted channelId peer => ∃ r, n.receiver channelId peer = some r ∧ 0 < r.timer.aborted

/-- One event happens to the node, and its handler does not throw. -/
structure Step (n : Node W S ε) (e : Event ε) (n' : Node W S ε) : Prop where
  enabled : e.Enabled n
  result : e.call n = .ok () n'

end Node

end FecRelay
