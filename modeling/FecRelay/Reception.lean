import FecRelay.Wire

/-!
# Receiving a block

A packet's header says which symbol its payload is. A block that was given nothing
but symbols of one message collects them until its codec reports success, and then
it has the message.
-/

namespace FecRelay.Block

open FecRelay.Base

variable {W : Wirehair}

/-! ## Receiving packets -/

/-- A packet's header and payload are read, and the symbol is processed. -/
def receive (packet : Bytes) : Method Fault (Block W) Bool := do
  let h ← Method.lift (Packet.header BlockPacketHeader packet)
  let payload ← Method.lift (Packet.payload BlockPacketHeader packet)
  processSymbol payload h.packetIndex.toNat

theorem receive_makeBlock (payload : Bytes) (channelId blockId blockSize packetIndex : UInt32)
    (b : Block W) :
    receive (Packet.makeBlock payload channelId blockId blockSize packetIndex) b =
      processSymbol payload packetIndex.toNat b := by
  unfold receive Packet.makeBlock
  rw [Packet.header_ofHeader, Packet.payload_ofHeader,
    Method.bind_of_ok (Method.lift_ok _ b), Method.bind_of_ok (Method.lift_ok _ b)]

/-! ## The codec of a receiving block -/

/-- The symbols of a message that a receiving block was given. -/
structure Collects (message : Bytes) (encoder : W.Codec) (ids : List Nat) (b : Block W) :
    Prop where
  undecoded : b.decoded = []
  size_eq : b.fec.blockSize = message.length
  fed : W.Fed message maxBlockPacketSize encoder ids b.fec.wirehair

/-- One more symbol: the block goes on collecting, or it has the message. -/
theorem Collects.processSymbol {message : Bytes} {encoder : W.Codec} {ids : List Nat}
    {b : Block W} (h : Collects message encoder ids b) (hmessage : message ≠ [])
    (hencoder : W.encoderCreate message maxBlockPacketSize = some encoder) {id : Nat}
    {data : Bytes} (hid : id < 2 ^ 32)
    (hsymbol : W.SymbolOf message maxBlockPacketSize encoder id data)
    (hlaw : W.RecoversAt message maxBlockPacketSize ids id) :
    (Method.returned (Block.processSymbol data id b) ≠ some true ∧
      Collects message encoder (id :: ids) (Method.after (Block.processSymbol data id b))) ∨
    (∃ b', Block.processSymbol data id b = .ok true b' ∧ b'.decoded = message) := by
  have hindex : u32 id = id := u32_of_lt hid
  have hfed := h.fed.decode hsymbol
  rw [processSymbol_of_undecoded h.undecoded, hindex]
  rcases BlockFec.processSymbol_cases b.fec data id with
    ⟨e, codec, heq, hcodec⟩ | heq | ⟨block, codec, hsuccess, hrecover, heq⟩
  · -- the call throws, and the codec has the symbol
    apply Or.inl
    rw [heq]
    refine ⟨by simp, h.undecoded, h.size_eq, ?_⟩
    rcases hcodec with rfl | ⟨rfl, hfail⟩
    · exact hfed
    · exact hfed.becomesEncoder hfail
  · apply Or.inl
    rw [heq]
    exact ⟨by simp, h.undecoded, h.size_eq, hfed⟩
  · -- success means that the message was recovered
    have hwritten := hlaw encoder b.fec.wirehair data hencoder h.fed hsymbol hsuccess
    rw [h.size_eq, hwritten] at hrecover
    cases hrecover
    apply Or.inr
    rw [heq]
    simp only [if_neg hmessage]
    exact ⟨_, rfl, rfl⟩

end FecRelay.Block
