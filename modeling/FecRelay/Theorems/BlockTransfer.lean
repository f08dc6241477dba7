import FecRelay.Base.Run
import FecRelay.Reception

/-!
# A block arrives as it was sent

Packets of a block are delivered without repetition, some lost, in any order, and
fed to a block made from the size in the first of them. If that block reports its
data at all it reports the message, once, and leaves everything alone afterwards.
The size travels in 32 bits, which bounds the messages this holds for.
-/

namespace FecRelay.Block

open FecRelay.Base

variable {W : Wirehair}

/-! ## Deliveries -/

/-- A delivered packet and what `process_symbol` returned for it, if it returned. -/
structure Arrival where
  packet : Bytes
  result : Option Bool
  deriving DecidableEq, Repr

structure Arrival.Step (b : Block W) (e : Arrival) (b' : Block W) : Prop where
  result : e.result = Method.returned (receive e.packet b)
  next : b' = Method.after (receive e.packet b)

/-- The packets of `message` in a block packet range, delivered to a receiving block:
at most one call reports the block, which then is the message, and the later calls
report nothing and leave the whole block, its codec included, as it is. -/
def RoundTrips (W : Wirehair) (message : Bytes) (channelId blockId : UInt32)
    (redundancy : Nat → Nat) : Prop :=
  ∀ (sender : Block W) (packets : List Bytes),
    ofData message = .ok sender → 2 ≤ sender.nOriginal → sender.nOriginal ≤ 64000 →
    blockPacketRange sender channelId blockId redundancy = .ok packets →
    ∀ (es : List Arrival) (first : Arrival) (rest : List Arrival) (h : BlockPacketHeader)
      (receiver b : Block W),
      (es.map (·.packet)).Subperm packets → es = first :: rest →
      Packet.header BlockPacketHeader first.packet = .ok h →
      ofSize h.blockSize.toNat = .ok receiver →
      Run Arrival.Step receiver es b →
      ∀ before e after, es = before ++ e :: after → e.result = some true →
        (∀ x ∈ before ++ after, x.result ≠ some true) ∧
        (∀ x ∈ after, x.result = some false) ∧
        ∃ b₁, Run Arrival.Step receiver (before ++ [e]) b₁ ∧ b₁.decoded = message ∧ b = b₁

/-! ## Runs of arrivals -/

def IsBlockPacket (packet : Bytes) : Prop :=
  ∃ payload channelId blockId blockSize packetIndex,
    packet = Packet.makeBlock payload channelId blockId blockSize packetIndex

theorem receive_of_decoded {b : Block W} (h : b.decoded ≠ []) {packet : Bytes}
    (hpacket : IsBlockPacket packet) : receive packet b = .ok false b := by
  obtain ⟨payload, channelId, blockId, blockSize, packetIndex, rfl⟩ := hpacket
  rw [receive_makeBlock]
  exact processSymbol_of_decoded h _ _

/-- A call that reports the block leaves its data there. -/
theorem decoded_of_true {b : Block W} {data : Bytes} {ix : Nat}
    (h : Method.returned (Block.processSymbol data ix b) = some true) :
    (Method.after (Block.processSymbol data ix b)).decoded ≠ [] := by
  have hcall := Method.eq_ok_of_returned h
  by_cases hdecoded : b.decoded = []
  · exact (processSymbol_reports hdecoded hcall).mp rfl
  · rw [processSymbol_of_decoded hdecoded] at hcall
    cases hcall

/-- A block that holds its data is not touched by what still arrives. -/
theorem run_of_decoded {b b' : Block W} {es : List Arrival} (hrun : Run Arrival.Step b es b')
    (h : b.decoded ≠ []) (hpackets : ∀ e ∈ es, IsBlockPacket e.packet) :
    b' = b ∧ ∀ e ∈ es, e.result = some false := by
  induction hrun with
  | nil => exact ⟨rfl, fun e he => absurd he List.not_mem_nil⟩
  | @snoc c c' es e hrun hstep ih =>
      obtain ⟨hsame, hresults⟩ := ih fun x hx => hpackets x (List.mem_append_left _ hx)
      subst hsame
      have hreceive := receive_of_decoded h
        (hpackets e (List.mem_append_right _ (List.mem_singleton_self _)))
      refine ⟨?_, ?_⟩
      · rw [hstep.next, hreceive]
        rfl
      · intro x hx
        rcases List.mem_append.mp hx with hx | hx
        · exact hresults x hx
        · rw [List.mem_singleton.mp hx, hstep.result, hreceive]
          rfl

/-- A block that is still not decoded has reported nothing. -/
theorem unreported_of_undecoded {b b' : Block W} {es : List Arrival}
    (hrun : Run Arrival.Step b es b') (hundecoded : b'.decoded = [])
    (hpackets : ∀ e ∈ es, IsBlockPacket e.packet) :
    ∀ e ∈ es, e.result ≠ some true := by
  induction hrun with
  | nil => exact fun e he => absurd he List.not_mem_nil
  | @snoc c c' es e hrun hstep ih =>
      have hlast := hpackets e (List.mem_append_right _ (List.mem_singleton_self _))
      have hbefore : c.decoded = [] := by
        by_contra hdecoded
        rw [hstep.next, receive_of_decoded hdecoded hlast] at hundecoded
        exact hdecoded hundecoded
      intro x hx
      rcases List.mem_append.mp hx with hx | hx
      · exact ih hbefore (fun y hy => hpackets y (List.mem_append_left _ hy)) x hx
      · rw [List.mem_singleton.mp hx]
        intro htrue
        obtain ⟨payload, channelId, blockId, blockSize, packetIndex, hpacket⟩ := hlast
        rw [hstep.result, hpacket, receive_makeBlock] at htrue
        apply decoded_of_true htrue
        rw [← receive_makeBlock payload channelId blockId blockSize packetIndex, ← hpacket,
          ← hstep.next]
        exact hundecoded

/-- The index a delivered packet carries. -/
def Arrival.index (e : Arrival) : Nat := (Packet.blockIndex e.packet).toNat

/-- A packet that a sender of `message` makes. -/
def Honest (message : Bytes) (encoder : W.Codec) (packet : Bytes) : Prop :=
  ∃ data channelId blockId blockSize index,
    packet = Packet.makeBlock data channelId blockId blockSize index ∧
      W.SymbolOf message maxBlockPacketSize encoder index.toNat data

theorem Honest.isBlockPacket {message : Bytes} {encoder : W.Codec} {packet : Bytes}
    (h : Honest message encoder packet) : IsBlockPacket packet := by
  obtain ⟨data, channelId, blockId, blockSize, index, hpacket, _⟩ := h
  exact ⟨data, channelId, blockId, blockSize, index, hpacket⟩

section arrivals

variable {message : Bytes} {encoder : W.Codec} (hlaw : W.RecoversDistinct)
  (hmessage : message ≠ [])
  (hcount : 2 ≤ Chunks.count maxBlockPacketSize message.length ∧
    Chunks.count maxBlockPacketSize message.length ≤ 64000)
  (hencoder : W.encoderCreate message maxBlockPacketSize = some encoder)
include hlaw hmessage hcount hencoder

/-- An honest packet with a new index arrives: the block reports nothing and goes on
collecting, or it has the message. -/
theorem Collects.arrival {b b' : Block W} {ids : List Nat} {e : Arrival}
    (h : Collects message encoder ids b) (hstep : Arrival.Step b e b')
    (hhonest : Honest message encoder e.packet) (hnew : (e.index :: ids).Nodup) :
    (e.result ≠ some true ∧ Collects message encoder (e.index :: ids) b') ∨
      b'.decoded = message := by
  obtain ⟨data, channelId, blockId, blockSize, packetIndex, hpacket, hsymbol⟩ := hhonest
  have hindex : e.index = packetIndex.toNat := by
    unfold Arrival.index
    rw [hpacket, Packet.blockIndex_makeBlock]
  have hreceive : receive e.packet b = Block.processSymbol data packetIndex.toNat b := by
    rw [hpacket, receive_makeBlock]
  rw [hstep.result, hstep.next, hreceive, hindex]
  rw [hindex] at hnew
  have hat := hlaw message maxBlockPacketSize ids packetIndex.toNat hcount.1 hcount.2 hnew
  rcases h.processSymbol hmessage hencoder packetIndex.toNat_lt hsymbol hat with
    hgoes | ⟨b₂, heq, hdecoded⟩
  · exact Or.inl hgoes
  · rw [heq]
    exact Or.inr hdecoded

/-- A block that is still not decoded collects what arrived. -/
theorem collects_run {receiver b : Block W} (hstart : Collects message encoder [] receiver)
    {es : List Arrival} (hrun : Run Arrival.Step receiver es b)
    (hhonest : ∀ e ∈ es, Honest message encoder e.packet)
    (hdistinct : (es.map Arrival.index).Nodup) (hundecoded : b.decoded = []) :
    Collects message encoder (es.map Arrival.index).reverse b := by
  induction hrun with
  | nil => exact hstart
  | @snoc b b' es e hrun hstep ih =>
      have hlast := hhonest e (List.mem_append_right _ (List.mem_singleton_self _))
      -- the block was not decoded before either
      have hbefore : b.decoded = [] := by
        by_contra hdecoded
        rw [hstep.next, receive_of_decoded hdecoded hlast.isBlockPacket] at hundecoded
        exact hdecoded hundecoded
      have hreverse : ((es ++ [e]).map Arrival.index).reverse =
          e.index :: (es.map Arrival.index).reverse := by simp
      have hnew := List.nodup_reverse.mpr hdistinct
      rw [hreverse] at hnew ⊢
      have hcollects := ih (fun x hx => hhonest x (List.mem_append_left _ hx))
        (List.nodup_reverse.mp (List.nodup_cons.mp hnew).2) hbefore
      rcases hcollects.arrival hlaw hmessage hcount hencoder hstep hlast hnew with
        ⟨_, hgoes⟩ | hdecoded
      · exact hgoes
      · exact absurd (hdecoded.symm.trans hundecoded) hmessage

end arrivals

/-! ## The packets of a sender -/

section sender

variable {message : Bytes} {encoder : W.Codec} {sender : Block W}
  (hsender : sender =
    { blockSize := u32 message.length, decoded := message, fec := { wirehair := encoder } })
  (hlength : message.length < 2 ^ 32) (hn : 1 ≤ sender.nOriginal)
include hsender hlength hn

/-- What a fresh sender has as symbol `index` is that symbol of its message. -/
theorem symbolOf_of_symbolData {index : Nat} {data : Bytes}
    (hdata : sender.symbolData index = .ok data) :
    W.SymbolOf message maxBlockPacketSize encoder index data := by
  have hsize : sender.blockSize = message.length := by
    rw [hsender]
    exact u32_of_lt hlength
  have hdecoded : sender.decoded = message := by rw [hsender]
  have hwirehair : sender.fec.wirehair = encoder := by rw [hsender]
  obtain ⟨hcount, _⟩ := nOriginal_eq (hsize ▸ hlength) hn
  unfold Wirehair.SymbolOf
  rw [← hsize, ← hcount]
  by_cases hlt : index < sender.nOriginal
  · -- an original symbol
    rw [if_pos hlt]
    rw [symbolData_of_lt (hsize ▸ hlength) (by rw [hdecoded, hsize]) hlt, hdecoded] at hdata
    exact (Except.ok.inj hdata).symm
  · -- a symbol the codec writes
    rw [if_neg hlt]
    unfold symbolData BlockFec.getSymbolData at hdata
    rw [if_neg hlt, hwirehair] at hdata
    cases hencode : W.encode encoder index maxBlockPacketSize with
    | mk res written =>
        rw [hencode] at hdata
        by_cases hres : res = .success
        · subst hres
          cases hdata
          rfl
        · simp only [decide_eq_false hres, enforce_false] at hdata
          cases hdata

/-- What a generator of a fresh sender makes: symbols of its message with distinct
indices, under the size of the message. -/
theorem packets_of_sender {channelId blockId : UInt32} {redundancy : Nat → Nat}
    {packets : List Bytes}
    (hpackets : blockPacketRange sender channelId blockId redundancy = .ok packets) :
    (∀ packet ∈ packets, ∃ data index,
      packet = Packet.makeBlock data channelId blockId (UInt32.ofNat message.length) index ∧
        W.SymbolOf message maxBlockPacketSize encoder index.toNat data) ∧
      (packets.map fun packet => (Packet.blockIndex packet).toNat).Nodup := by
  have hsize : sender.blockSize = message.length := by
    rw [hsender]
    exact u32_of_lt hlength
  have hseen : sender.symbolsSeen = [] := by rw [hsender]
  have hroom : u32 (redundancy sender.nOriginal) + sender.symbolsSeen.count true ≤ 2 ^ 32 := by
    have := u32_lt (redundancy sender.nOriginal)
    rw [hseen, List.count_nil]
    omega
  obtain ⟨symbols, next, hyields, rfl⟩ := blockPacketRange_yields hpackets hroom
  have hindex : ∀ symbol ∈ symbols, (UInt32.ofNat symbol.2).toNat = symbol.2 := by
    intro symbol hsymbol
    exact UInt32.toNat_ofNat_of_lt' (hyields.sound symbol hsymbol).2.1
  refine ⟨?_, ?_⟩
  · intro packet hpacket
    obtain ⟨symbol, hsymbol, rfl⟩ := List.mem_map.mp hpacket
    refine ⟨symbol.1, UInt32.ofNat symbol.2, by rw [hsize], ?_⟩
    rw [hindex symbol hsymbol]
    exact symbolOf_of_symbolData hsender hlength hn (hyields.sound symbol hsymbol).2.2.2
  · have hsame : (symbols.map fun symbol => Packet.makeBlock symbol.1 channelId blockId
        (UInt32.ofNat sender.blockSize) (UInt32.ofNat symbol.2)).map
        (fun packet => (Packet.blockIndex packet).toNat) = symbols.map (·.2) := by
      rw [List.map_map]
      apply List.map_congr_left
      intro symbol hsymbol
      show (Packet.blockIndex (Packet.makeBlock _ _ _ _ _)).toNat = symbol.2
      rw [Packet.blockIndex_makeBlock, hindex symbol hsymbol]
    rw [hsame]
    exact hyields.ascending.imp fun hlt => ne_of_lt hlt

end sender

/-! ## The round trip -/

/-- A receiver that is made for the size in a packet has nothing of the message yet. -/
theorem collects_receiver {message : Bytes} {encoder : W.Codec} {receiver : Block W}
    (hlength : message.length < 2 ^ 32) {data : Bytes} {channelId blockId index : UInt32}
    {h : BlockPacketHeader}
    (hheader : Packet.header BlockPacketHeader (Packet.makeBlock data channelId blockId
      (UInt32.ofNat message.length) index) = .ok h)
    (hreceiver : ofSize h.blockSize.toNat = .ok receiver) :
    Collects message encoder [] receiver := by
  rw [Packet.makeBlock, Packet.header_ofHeader] at hheader
  cases hheader
  have hto : (UInt32.ofNat message.length).toNat = message.length :=
    UInt32.toNat_ofNat_of_lt' hlength
  have hmade : ofSize (UInt32.ofNat message.length).toNat = .ok receiver := hreceiver
  rw [hto] at hmade
  obtain ⟨decoder, hdecoder, rfl⟩ := ofSize_ok_iff.mp hmade
  exact ⟨rfl, u32_of_lt hlength, .create hdecoder⟩

theorem round_trips {W : Wirehair} (hlaw : W.RecoversDistinct) {message : Bytes}
    (hlength : message.length < 2 ^ 32) (channelId blockId : UInt32) (redundancy : Nat → Nat) :
    RoundTrips W message channelId blockId redundancy := by
  intro sender packets hsender hn hn' hpackets es first rest h receiver b hsub hes hfirst hreceiver
    hrun before e after hsplit htrue
  obtain ⟨encoder, hencoder, hsender⟩ := ofData_ok_iff.mp hsender
  obtain ⟨hmade, hnodup⟩ := packets_of_sender hsender hlength (by omega) hpackets
  have hsize : sender.blockSize = message.length := by
    rw [hsender]
    exact u32_of_lt hlength
  have hcount := (nOriginal_eq (hsize ▸ hlength) (by omega : 1 ≤ sender.nOriginal)).1
  rw [hsize] at hcount
  rw [hcount] at hn hn'
  have hmessage : message ≠ [] := by
    rintro rfl
    simp [Chunks.count, maxBlockPacketSize, maxPacketSize] at hn
  -- every arrival is one of the sender's packets, under an index of its own
  have harrived : ∀ x ∈ es, ∃ data index,
      x.packet = Packet.makeBlock data channelId blockId (UInt32.ofNat message.length) index ∧
        W.SymbolOf message maxBlockPacketSize encoder index.toNat data :=
    fun x hx => hmade x.packet (hsub.subset (List.mem_map_of_mem hx))
  have hhonest : ∀ x ∈ es, Honest message encoder x.packet := by
    intro x hx
    obtain ⟨data, index, hpacket, hsymbol⟩ := harrived x hx
    exact ⟨data, channelId, blockId, _, index, hpacket, hsymbol⟩
  have hdistinct : (es.map Arrival.index).Nodup := by
    obtain ⟨delivered, hperm, hsublist⟩ := hsub
    have hindices := (hsublist.map fun packet => (Packet.blockIndex packet).toNat).nodup hnodup
    rw [(hperm.map fun packet => (Packet.blockIndex packet).toNat).nodup_iff, List.map_map] at hindices
    exact hindices
  have hstart : Collects message encoder [] receiver := by
    obtain ⟨data, index, hpacket, _⟩ := harrived first (hes ▸ List.mem_cons_self)
    exact collects_receiver hlength (hpacket ▸ hfirst) hreceiver
  subst hsplit
  obtain ⟨b₁, hrunBefore, hrunRest⟩ := Run.of_append hrun
  obtain ⟨b₂, hstep, hrunAfter⟩ := Run.cons_iff.mp hrunRest
  have hlast := hhonest e (List.mem_append_right _ List.mem_cons_self)
  have hbefore : ∀ x ∈ before, Honest message encoder x.packet :=
    fun x hx => hhonest x (List.mem_append_left _ hx)
  have hafter : ∀ x ∈ after, Honest message encoder x.packet :=
    fun x hx => hhonest x (List.mem_append_right _ (List.mem_cons_of_mem _ hx))
  -- the block was not decoded before this call, or it would have returned false
  have hundecoded : b₁.decoded = [] := by
    by_contra hdecoded
    rw [hstep.result, receive_of_decoded hdecoded hlast.isBlockPacket] at htrue
    cases htrue
  rw [List.map_append, List.map_cons, List.nodup_append, List.nodup_cons] at hdistinct
  have hcollects := collects_run hlaw hmessage ⟨hn, hn'⟩ hencoder hstart hrunBefore hbefore
    hdistinct.1 hundecoded
  have hnew : (e.index :: (before.map Arrival.index).reverse).Nodup := by
    rw [List.nodup_cons, List.nodup_reverse, List.mem_reverse]
    exact ⟨fun hmem => hdistinct.2.2 _ hmem e.index List.mem_cons_self rfl, hdistinct.1⟩
  have hdecoded : b₂.decoded = message := by
    rcases hcollects.arrival hlaw hmessage ⟨hn, hn'⟩ hencoder hstep hlast hnew with
      ⟨hfalse, _⟩ | hdecoded
    · exact absurd htrue hfalse
    · exact hdecoded
  obtain ⟨hsame, hresults⟩ := run_of_decoded hrunAfter (hdecoded ▸ hmessage)
    fun x hx => (hafter x hx).isBlockPacket
  refine ⟨?_, hresults, b₂, .snoc hrunBefore hstep, hdecoded, hsame⟩
  intro x hx
  rcases List.mem_append.mp hx with hx | hx
  · exact unreported_of_undecoded hrunBefore hundecoded
      (fun y hy => (hbefore y hy).isBlockPacket) x hx
  · rw [hresults x hx]
    simp

/-! ## Blocks over the replicating codec -/

section replicating

variable {b : Block replicating} {data : Bytes} {ix : Nat}

theorem processSymbol_of_incomplete (hb : b.decoded = []) (hix : ix < 2 ^ 32)
    (h : (b.fec.wirehair.store ix data).complete = false) :
    processSymbol data ix b = .ok false (b.received ix (b.fec.decoded data ix)) := by
  have hneed : (replicating.decode b.fec.wirehair ix data).1 = .needMore := by
    rw [Replica.decode_fst, h]
    exact if_neg Bool.false_ne_true
  rw [processSymbol_of_undecoded hb, u32_of_lt hix, BlockFec.processSymbol_of_needMore hneed]
  exact if_pos rfl

theorem processSymbol_of_complete (hb : b.decoded = []) (hix : ix < 2 ^ 32)
    (h : (b.fec.wirehair.store ix data).complete = true)
    (hne : (b.fec.wirehair.store ix data).output ≠ []) :
    ∃ b', processSymbol data ix b = .ok true b' ∧
      b'.decoded = (b.fec.wirehair.store ix data).output := by
  have hsuccess : (replicating.decode b.fec.wirehair ix data).1 = .success := by
    rw [Replica.decode_fst, h]
    exact if_pos rfl
  have hrecover : replicating.recover (b.fec.decoded data ix).wirehair
      (b.fec.decoded data ix).blockSize =
      (.success, (b.fec.wirehair.store ix data).output) :=
    congrArg (fun c => (WirehairResult.success, Replica.output c)) (Replica.decode_snd _ ix data)
  rw [processSymbol_of_undecoded hb, u32_of_lt hix, BlockFec.processSymbol_of_success hsuccess,
    BlockFec.recovered_of_success (congrArg Prod.fst hrecover) rfl]
  rw [hrecover]
  simp only [if_neg hne]
  exact ⟨_, rfl, rfl⟩

end replicating

/-! ## A message of two symbols

A receiver of 1377 bytes over the replicating codec, which has them once it was given
both chunks. -/

section twoSymbols

variable {message : Bytes}

/-- A codec for 1377 bytes, and a block made with it. -/
def twoSymbolCodec : Replica := { size := 1377, blockBytes := maxBlockPacketSize }

def twoSymbolReceiver : Block replicating where
  blockSize := 1377
  symbolsSeen := [false, false]
  fec := { blockSize := 1377, wirehair := twoSymbolCodec }

theorem ofSize_twoSymbols : ofSize 1377 = .ok twoSymbolReceiver := rfl

/-- The packets of the two chunks of `message`. -/
def twoPackets (message : Bytes) : List Bytes :=
  [Packet.makeBlock (Chunks.chunk maxBlockPacketSize message 0) 1 1 1377 0,
    Packet.makeBlock (Chunks.chunk maxBlockPacketSize message 1) 1 1 1377 1]

/-- The codec once it was given the first chunk, and once it was given both. -/
def firstStored (message : Bytes) : Replica :=
  twoSymbolCodec.store 0 (Chunks.chunk maxBlockPacketSize message 0)

def bothStored (message : Bytes) : Replica :=
  (firstStored message).store 1 (Chunks.chunk maxBlockPacketSize message 1)

theorem twoSymbolCodec_n : twoSymbolCodec.n = 2 := by decide

theorem firstStored_parts : (firstStored message).parts 0 =
    some (Chunks.chunk maxBlockPacketSize message 0) ∧ (firstStored message).parts 1 = none := by
  unfold firstStored Replica.store
  rw [twoSymbolCodec_n]
  exact ⟨rfl, rfl⟩

theorem bothStored_parts : (bothStored message).parts 0 =
    some (Chunks.chunk maxBlockPacketSize message 0) ∧
    (bothStored message).parts 1 = some (Chunks.chunk maxBlockPacketSize message 1) := by
  have hn : (firstStored message).n = 2 := twoSymbolCodec_n
  unfold bothStored Replica.store
  rw [hn]
  exact ⟨firstStored_parts.1, rfl⟩

theorem firstStored_complete : (firstStored message).complete = false := by
  have hn : (firstStored message).n = 2 := twoSymbolCodec_n
  unfold Replica.complete
  rw [hn, List.range_succ, List.all_append, List.all_cons, firstStored_parts.2]
  exact Bool.and_false _

theorem bothStored_complete : (bothStored message).complete = true := by
  have hn : (bothStored message).n = 2 := twoSymbolCodec_n
  unfold Replica.complete
  rw [hn, List.range_succ, List.range_one, List.all_append, List.all_cons, List.all_cons,
    bothStored_parts.1, bothStored_parts.2]
  rfl

theorem bothStored_output (hlength : message.length = 1377) :
    (bothStored message).output = message := by
  have hn : (bothStored message).n = 2 := twoSymbolCodec_n
  have hparts : (bothStored message).output =
      (List.range 2).flatMap (Chunks.chunk maxBlockPacketSize message) := by
    unfold Replica.output
    rw [hn, List.range_succ, List.range_one]
    simp [bothStored_parts]
  rw [hparts, Chunks.flatMap_chunk_range]
  exact List.take_of_length_le (by rw [hlength]; decide)

/-- Both packets arrive, and the second call reports the message. -/
theorem receives_twoPackets (hlength : message.length = 1377) :
    ∃ (b : Block replicating) (es : List Arrival) (e : Arrival),
      Run Arrival.Step twoSymbolReceiver (es ++ [e]) b ∧
      (es ++ [e]).map (·.packet) = twoPackets message ∧
      e.result = some true ∧ b.decoded = message := by
  let first := Chunks.chunk maxBlockPacketSize message 0
  let second := Chunks.chunk maxBlockPacketSize message 1
  let b₁ := twoSymbolReceiver.received 0 (twoSymbolReceiver.fec.decoded first 0)
  have hfirst : receive (Packet.makeBlock first 1 1 1377 0) twoSymbolReceiver = .ok false b₁ := by
    rw [receive_makeBlock]
    exact processSymbol_of_incomplete rfl (by decide) firstStored_complete
  have hstored : b₁.fec.wirehair.store 1 second = bothStored message :=
    congrArg (fun c => Replica.store c 1 second) (Replica.decode_snd twoSymbolCodec 0 first)
  have hmessage : message ≠ [] := List.ne_nil_of_length_pos (by omega)
  obtain ⟨b₂, hsecond, hdecoded⟩ := @processSymbol_of_complete b₁ second 1 rfl (by decide)
    (by rw [hstored]; exact bothStored_complete)
    (by rw [hstored, bothStored_output hlength]; exact hmessage)
  rw [hstored, bothStored_output hlength] at hdecoded
  have hsecond : receive (Packet.makeBlock second 1 1 1377 1) b₁ = .ok true b₂ := by
    rw [receive_makeBlock]
    exact hsecond
  refine ⟨b₂, [⟨Packet.makeBlock first 1 1 1377 0, some false⟩],
    ⟨Packet.makeBlock second 1 1 1377 1, some true⟩,
    .snoc (t := b₁) (.single ⟨?_, ?_⟩) ⟨?_, ?_⟩, rfl, rfl, hdecoded⟩
  · rw [hfirst]
    rfl
  · rw [hfirst]
    rfl
  · rw [hsecond]
    rfl
  · rw [hsecond]
    rfl

end twoSymbols

/-- The round trip over the replicating codec, and a delivery in which the block is
reported. -/
theorem round_trips_two_symbols :
    RoundTrips replicating (List.replicate 1377 7) 1 1 redundancy ∧
      ∃ (b : Block replicating) (es : List Arrival) (e : Arrival),
        Run Arrival.Step twoSymbolReceiver (es ++ [e]) b ∧ e.result = some true := by
  refine ⟨round_trips Replica.recovers.distinct ?_ 1 1 redundancy, ?_⟩
  · rw [List.length_replicate]
    decide
  · obtain ⟨b, es, e, hrun, _, hresult, _⟩ :=
      receives_twoPackets (List.length_replicate : (List.replicate 1377 (7 : UInt8)).length = _)
    exact ⟨b, es, e, hrun, hresult⟩

/-! ## Messages of four gigabytes

A message of `2 ^ 32 + 1377` bytes is announced as one of 1377. -/

/-- The front of the message that is announced. -/
def announced (message : Bytes) : Bytes := message.take 1377

/-- The sender of such a message, with a codec for all of it. -/
def oversizedSender (message : Bytes) : Block replicating where
  blockSize := 1377
  decoded := message
  fec := { wirehair :=
    { size := message.length, blockBytes := maxBlockPacketSize, message := message } }

theorem nOriginal_oversized (message : Bytes) : (oversizedSender message).nOriginal = 2 := by
  show u32 (1377 + maxBlockPacketSize - 1) / maxBlockPacketSize = 2
  decide

section oversized

variable {message : Bytes} (hlength : message.length = 2 ^ 32 + 1377)
include hlength

theorem ofData_oversized : ofData message = .ok (oversizedSender message) := by
  refine ofData_ok_iff.mpr ⟨(oversizedSender message).fec.wirehair, ?_, ?_⟩
  · show (if Replica.accepts message.length maxBlockPacketSize then _ else _) = _
    rw [if_pos (by rw [hlength]; decide)]
    rfl
  · rw [hlength]
    unfold oversizedSender
    rw [hlength]
    rfl

/-- Its original symbols are chunks of the front. -/
theorem symbolData_oversized {k : Nat} (hk : k < 2) :
    (oversizedSender message).symbolData k =
      .ok (Chunks.chunk maxBlockPacketSize (announced message) k) := by
  have hn : k < (oversizedSender message).nOriginal := by rwa [nOriginal_oversized]
  unfold symbolData Chunks.chunk announced
  rw [if_pos hn, List.take_take]
  rcases (by omega : k = 0 ∨ k = 1) with rfl | rfl
  · have hend : 1376 ≤ message.length := by omega
    exact if_pos ⟨Nat.zero_le _, hend⟩
  · have hend : 1377 ≤ message.length := by omega
    have hstart : 1376 ≤ 1377 := by omega
    exact if_pos ⟨hstart, hend⟩

theorem generate_oversized {k : Nat} (hk : k < 2) :
    generate (oversizedSender message) k =
      .ok (Chunks.chunk maxBlockPacketSize (announced message) k, k) (k + 1) := by
  have hskip : skipSeen (oversizedSender message).symbolsSeen
      ((oversizedSender message).symbolsSeen.length + 1) k = .ok k := rfl
  rw [generate, Method.bind_of_ok (Method.get_apply k), hskip,
    Method.bind_of_ok (Method.lift_ok k k), Method.bind_of_ok (Method.set_apply k _),
    symbolData_oversized hlength hk, u32_of_lt (by omega)]
  rfl

theorem packets_oversized :
    blockPacketRange (oversizedSender message) 1 1 id = .ok (twoPackets (announced message)) := by
  have hrange : unseenRange (oversizedSender message) 2 0 = .ok
      [(Chunks.chunk maxBlockPacketSize (announced message) 0, 0),
        (Chunks.chunk maxBlockPacketSize (announced message) 1, 1)] 2 := by
    have hlast : unseenRange (oversizedSender message) 1 1 = .ok
        [(Chunks.chunk maxBlockPacketSize (announced message) 1, 1)] 2 := by
      rw [unseenRange, Method.bind_of_ok (generate_oversized hlength (by decide))]
      rfl
    rw [unseenRange, Method.bind_of_ok (generate_oversized hlength (by decide)),
      Method.bind_of_ok hlast]
    rfl
  unfold blockPacketRange
  rw [nOriginal_oversized, id_eq, u32_of_lt (by decide), hrange]
  rfl

theorem announced_length : (announced message).length = 1377 := by
  unfold announced
  rw [List.length_take, hlength]
  rfl

end oversized

/-- **The size is cut.** A message of four gigabytes is not received as it was sent,
whatever it is, although the codec recovers every message it is given symbols of. -/
theorem oversized_message_not_received : replicating.RecoversDistinct ∧
    ¬RoundTrips replicating (List.replicate (2 ^ 32 + 1377) 7) 1 1 id := by
  refine ⟨Replica.recovers.distinct, ?_⟩
  intro h
  have hlength : (List.replicate (2 ^ 32 + 1377) (7 : UInt8)).length = 2 ^ 32 + 1377 :=
    List.length_replicate
  generalize List.replicate (2 ^ 32 + 1377) (7 : UInt8) = message at h hlength
  obtain ⟨b, es, e, hrun, hpackets, htrue, hdecoded⟩ :=
    receives_twoPackets (announced_length hlength)
  have hn := nOriginal_oversized message
  cases es with
  | nil => exact absurd (congrArg List.length hpackets) (by simp [twoPackets])
  | cons first rest =>
      have hfirst : first.packet = Packet.makeBlock
          (Chunks.chunk maxBlockPacketSize (announced message) 0) 1 1 1377 0 :=
        (List.cons.inj hpackets).1
      have hheader := congrArg (Packet.header BlockPacketHeader) hfirst
      rw [Packet.makeBlock, Packet.header_ofHeader] at hheader
      obtain ⟨_, _, b₁, _, hmessage, hsame⟩ := h (oversizedSender message) _
        (ofData_oversized hlength) (by omega) (by omega) (packets_oversized hlength) _ first
        (rest ++ [e]) _ _ b (hpackets ▸ List.Subperm.refl _) rfl hheader ofSize_twoSymbols hrun
        (first :: rest) e [] rfl htrue
      -- what was received is too short
      have hshort := congrArg List.length (hmessage.symm.trans (hsame ▸ hdecoded))
      rw [announced_length hlength, hlength] at hshort
      omega

end FecRelay.Block
