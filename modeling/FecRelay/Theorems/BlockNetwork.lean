import FecRelay.Network
import FecRelay.Theorems.BlockRelay
import FecRelay.Theorems.PacketSize

/-!
# Blocks cross a network intact

A block that is published once is sent as symbols by its publisher, passed on as they
are by every node, and made again by every node that decoded it. Whatever the network
loses, repeats and delays, only symbols of the message ever travel under the block's
ids, and a node that holds the block's data holds the message.
-/

namespace FecRelay

open FecRelay.Base

variable {W : Wirehair} {S : Siamese} {ε : Type} [LinearOrder ε]

namespace Published

/-- `data` is a block packet with the ids of the block. -/
def Claims (p : Published W) (data : Bytes) : Prop :=
  Node.typeOf data = some .block ∧
    ∃ h, Packet.header BlockPacketHeader data = .ok h ∧ (h.channelId, h.blockId) = p.key

/-- `data` is a symbol of the block if it claims to be. -/
def Honest (p : Published W) (data : Bytes) : Prop :=
  p.Claims data → ∃ index < 2 ^ 32, p.IsSymbol index data

/-- The block holds the message, and its codec writes recovery symbols of it. -/
structure Serves (p : Published W) (B : Block W) : Prop where
  decoded : B.decoded = p.message
  size_eq : B.blockSize = p.message.length
  encodes : ∀ id data, Chunks.count maxBlockPacketSize p.message.length ≤ id →
    W.encode B.fec.wirehair id maxBlockPacketSize = (.success, data) →
    W.SymbolOf p.message maxBlockPacketSize p.encoder id data

variable {p : Published W}

/-- The size that is a message's own fits the header. -/
theorem length_lt (hlimit : Chunks.count maxBlockPacketSize p.message.length ≤ 64000) :
    p.message.length + maxBlockPacketSize < 2 ^ 32 := by
  unfold Chunks.count maxBlockPacketSize maxPacketSize at *
  omega

theorem honest_of_typeOf {data : Bytes} (h : Node.typeOf data ≠ some .block) : p.Honest data :=
  fun hclaims => absurd hclaims.1 h

/-! ## Packets that a block is sent in -/

theorem claims_makeBlock_iff {payload : Bytes} {channelId blockId size index : UInt32} :
    p.Claims (Packet.makeBlock payload channelId blockId size index) ↔
      (channelId, blockId) = p.key := by
  unfold Claims Packet.makeBlock
  rw [Packet.header_ofHeader]
  constructor
  · rintro ⟨-, h, hheader, hkey⟩
    cases hheader
    exact hkey
  · exact fun hkey => ⟨Node.typeOf_makeBlock _ _ _ _ _, _, rfl, hkey⟩

/-- A block that serves the message yields symbols of it. -/
theorem Serves.symbolOf (hlimit : Chunks.count maxBlockPacketSize p.message.length ≤ 64000)
    {B : Block W} (h : p.Serves B) {index : Nat} {data : Bytes}
    (hdata : B.symbolData index = .ok data) :
    W.SymbolOf p.message maxBlockPacketSize p.encoder index data := by
  have hroom := length_lt hlimit
  have hcount : B.nOriginal = Chunks.count maxBlockPacketSize p.message.length := by
    unfold Block.nOriginal
    rw [h.size_eq, u32_of_lt (by omega)]
    rfl
  by_cases hindex : index < B.nOriginal
  · have hsize : B.blockSize < 2 ^ 32 := by
      rw [h.size_eq]
      omega
    rw [Block.symbolData_of_lt hsize (by rw [h.decoded, h.size_eq]) hindex] at hdata
    unfold Wirehair.SymbolOf
    rw [if_pos (hcount ▸ hindex), ← Except.ok.inj hdata, h.decoded]
  · unfold Block.symbolData at hdata
    rw [if_neg hindex] at hdata
    unfold BlockFec.getSymbolData at hdata
    by_cases hsuccess : (W.encode B.fec.wirehair index maxBlockPacketSize).1 = .success
    · simp only [decide_eq_true hsuccess, enforce_true] at hdata
      cases hdata
      exact h.encodes index _ (hcount ▸ not_lt.mp hindex) (Prod.ext hsuccess rfl)
    · simp only [decide_eq_false hsuccess, enforce_false] at hdata
      cases hdata

/-- The packets of a block that serves the message are symbols of it. -/
theorem Serves.packets (hlimit : Chunks.count maxBlockPacketSize p.message.length ≤ 64000)
    {B : Block W} (h : p.Serves B) {packets : List Bytes}
    (hpackets : blockPacketRange B p.channelId p.blockId redundancy = .ok packets) :
    ∀ data ∈ packets, ∃ index < 2 ^ 32, p.IsSymbol index data := by
  intro data hdata
  obtain ⟨symbols, next, hrange, rfl⟩ := blockPacketRange_ok hpackets
  obtain ⟨symbol, hsymbol, rfl⟩ := List.mem_map.mp hdata
  obtain ⟨hindex, hsymbolData⟩ := Block.unseenRange_sound _ (by decide) hrange symbol hsymbol
  refine ⟨symbol.2, hindex, symbol.1, _, rfl, ?_, h.symbolOf hlimit hsymbolData⟩
  have hsize : p.message.length < 2 ^ 32 := by
    have := length_lt hlimit
    omega
  rw [h.size_eq]
  exact UInt32.toNat_ofNat_of_lt' hsize

/-- The packets of any block are symbols of this one if they claim to be, once those that
are sent under its ids serve its message. -/
theorem honest_of_packets (hlimit : Chunks.count maxBlockPacketSize p.message.length ≤ 64000)
    {B : Block W} {channelId blockId : UInt32} {packets : List Bytes}
    (hserves : (channelId, blockId) = p.key → p.Serves B)
    (hpackets : blockPacketRange B channelId blockId redundancy = .ok packets) :
    ∀ data ∈ packets, p.Honest data := by
  intro data hdata hclaims
  obtain ⟨symbol, heq⟩ := blockPacketRange_mem hpackets data hdata
  rw [heq, claims_makeBlock_iff] at hclaims
  obtain ⟨rfl, rfl⟩ : channelId = p.channelId ∧ blockId = p.blockId := Prod.ext_iff.mp hclaims
  exact (hserves hclaims).packets hlimit hpackets data hdata

/-- The publisher's own block serves its message. -/
theorem serves_ofData (hlimit : Chunks.count maxBlockPacketSize p.message.length ≤ 64000)
    {B : Block W} (hB : Block.ofData p.message = .ok B) : p.Serves B := by
  obtain ⟨codec, hcodec, rfl⟩ := Block.ofData_ok_iff.mp hB
  obtain rfl : codec = p.encoder := Option.some.inj (hcodec.symm.trans p.created)
  have hroom := length_lt hlimit
  refine ⟨rfl, u32_of_lt (by omega), ?_⟩
  intro id data hid hencode
  unfold Wirehair.SymbolOf
  rw [if_neg (not_lt.mpr hid)]
  exact hencode

/-! ## A node -/

/-- A block that is still collecting is not handed a symbol that it has marked. -/
def HandsOnce (p : Published W) (n : Node W S ε) (e : Node.Event ε) : Prop :=
  ∀ around data peer, e = .datagram around data peer → n.packetSeq % loseEvery ≠ 0 →
    ∀ index < 2 ^ 32, p.IsSymbol index data → ∀ B, n.blocks p.key = some B → B.decoded = [] →
      Block.marked B.symbolsSeen index = false

/-- The codec of the block was not called twice with the same index while it collects. -/
def Distinct (p : Published W) (n : Node W S ε) : Prop :=
  ∀ B, n.blocks p.key = some B → B.decoded = [] → B.fec.decodeCalls.Nodup

/-- The node was given nothing but symbols of the block under its ids: what it holds is the
message, and what it queues are symbols. -/
structure PassesOn (p : Published W) (n : Node W S ε) : Prop where
  tracks : p.Tracks n
  distinct : p.Distinct n
  held : ∀ B, n.blocks p.key = some B → B.decoded ≠ [] → B.decoded = p.message
  queued : ∀ channelId peer, ∀ data ∈ n.queuedTo channelId peer, p.Honest data

variable {n n' : Node W S ε}

theorem passesOn_init : p.PassesOn ({} : Node W S ε) where
  tracks := tracks_init
  distinct _ hB := by cases hB
  held _ hB := by cases hB
  queued _ _ _ hdata := absurd hdata List.not_mem_nil

/-- The indices that a collecting block was given stay distinct with that of the next symbol. -/
theorem Distinct.nodup (h : p.Distinct n) {around : Surroundings ε} {data : Bytes} {peer : ε}
    (honce : p.HandsOnce n (.datagram around data peer)) (hsurvives : n.packetSeq % loseEvery ≠ 0)
    {index : Nat} (hindex : index < 2 ^ 32) (hsymbol : p.IsSymbol index data) {B : Block W}
    (hB : n.blocks p.key = some B ∨ n.blocks p.key = none ∧ B.fec.decodeCalls = [])
    {packets : Int} (hcollecting : p.Collecting packets B) :
    (index :: B.fec.decodeCalls.reverse).Nodup := by
  rcases hB with hB | ⟨-, hnew⟩
  · have hundecoded := hcollecting.collects.undecoded
    refine List.nodup_cons.mpr ⟨?_, List.nodup_reverse.mpr (h B hB hundecoded)⟩
    intro hmem
    have hunmarked := honce around data peer rfl hsurvives index hindex hsymbol B hB hundecoded
    rw [hcollecting.marks index (List.mem_reverse.mp hmem)] at hunmarked
    cases hunmarked
  · rw [hnew]
    exact List.nodup_singleton index

/-- A step hands the codec a symbol that it did not have. -/
theorem PassesOn.distinct_step {e : Node.Event ε} (h : p.PassesOn n) (hstep : p.HonestStep n e n')
    (honce : p.HandsOnce n e) : p.Distinct n' := by
  intro B₁ hB₁ hundecoded
  rcases Node.step_blocks hstep.step with hsame | ⟨around, data, peer, hd, payload, B, decoded, B',
    generated, rfl, htype, hhandled⟩
  · rw [hsame] at hB₁
    exact h.distinct B₁ hB₁ hundecoded
  obtain ⟨-, -, hblocks, -⟩ := hhandled.effect
  by_cases hkey : (hd.channelId, hd.blockId) = p.key
  · obtain rfl : B' = B₁ := Option.some.inj ((hkey ▸ hhandled.block_after).symm.trans hB₁)
    have hB : n.blocks p.key = some B ∨ n.blocks p.key = none ∧ B.fec.decodeCalls = [] := by
      rw [← hkey]
      exact hhandled.blockFor.imp_right fun hnew => ⟨hnew.1, (Block.ofSize_fresh hnew.2).2.1⟩
    obtain ⟨index, hindex, hsymbol⟩ := hstep.honest around data peer rfl htype hd
      hhandled.header_ok hkey hhandled.survives
    obtain ⟨hix, hsize, hpayload⟩ := hsymbol.read hindex hhandled.header_ok hhandled.payload_ok
    rcases hhandled.outcome with ⟨hdecoded, rfl, -⟩ | ⟨hfresh, -, -⟩
    · exact absurd hundecoded hdecoded
    have hcollecting := h.tracks.blockFor hkey hsize hhandled.blockFor hfresh
    have hnodup := h.distinct.nodup honce hhandled.survives hindex hsymbol hB hcollecting
    have hcalls := Block.processSymbol_calls hfresh hhandled.processed
    rw [hix, u32_of_lt hindex] at hcalls
    rw [hcalls, ← List.nodup_reverse, List.reverse_append]
    exact hnodup
  · rw [hblocks, Function.update_of_ne (Ne.symm hkey)] at hB₁
    exact h.distinct B₁ hB₁ hundecoded

/-- A message of an acceptable size is not empty. -/
theorem ne_nil_of_two_le (htwo : 2 ≤ Chunks.count maxBlockPacketSize p.message.length) :
    p.message ≠ [] := by
  intro hnil
  rw [hnil] at htwo
  simp [Chunks.count, maxBlockPacketSize, maxPacketSize] at htwo

section laws

variable (hrecovers : W.RecoversDistinct) (hreencodes : W.ReencodesDistinct)
  (htwo : 2 ≤ Chunks.count maxBlockPacketSize p.message.length)
  (hlimit : Chunks.count maxBlockPacketSize p.message.length ≤ 64000)
include hrecovers htwo hlimit

theorem Distinct.recoversIn (h : p.Distinct n) {e : Node.Event ε} (honce : p.HandsOnce n e) :
    p.RecoversIn n e := by
  rintro around data peer rfl hsurvives index hindex hsymbol B hB hcollecting
  exact hrecovers _ _ _ _ htwo hlimit (h.nodup honce hsurvives hindex hsymbol hB hcollecting)

include hreencodes

/-- A collecting block that a symbol it did not have completes serves the message. -/
theorem Collecting.serves {packets : Int} {B B' : Block W} (h : p.Collecting packets B)
    {payload : Bytes} {index : Nat} (hindex : index < 2 ^ 32)
    (hsymbol : W.SymbolOf p.message maxBlockPacketSize p.encoder index payload)
    (hnodup : (index :: B.fec.decodeCalls.reverse).Nodup)
    (hcall : Block.processSymbol payload index B = .ok true B') : p.Serves B' := by
  have hcollects := h.collects
  have hlaw : W.RecoversAt p.message maxBlockPacketSize B.fec.decodeCalls.reverse index :=
    hrecovers _ _ _ _ htwo hlimit hnodup
  have hsize := (Block.processSymbol_marks hcollects.undecoded hcall).2
  rcases h.processSymbol (ne_nil_of_two_le htwo) hindex hsymbol hlaw hcall with
    ⟨hfalse, -⟩ | ⟨-, hdecoded⟩
  · cases hfalse
  refine ⟨hdecoded, hsize.trans h.size_eq, ?_⟩
  obtain ⟨res, fec, hfec, hres, rfl⟩ :=
    (Block.processSymbol_ok_iff hcollects.undecoded).mp hcall
  rw [u32_of_lt hindex] at hfec
  rcases BlockFec.processSymbol_ok hfec with ⟨-, rfl, -⟩ | ⟨hsuccess, hrecover, hready, rfl⟩
  · cases hres
  have hwritten := hlaw _ _ _ p.created hcollects.fed hsymbol hsuccess
  exact fun id data _ hencode => hreencodes _ _ _ _ _ htwo hlimit hnodup p.created
    (hcollects.fed.decode hsymbol) hwritten hready id data hencode

/-- What is generated when a packet of the block completes it are symbols of it. -/
theorem PassesOn.generated (h : p.PassesOn n) {around : Surroundings ε} {data : Bytes} {peer : ε}
    {hd : BlockPacketHeader} {payload : Bytes} {B B' : Block W} {decoded : Bool}
    {generated : List Bytes}
    (hhandled : Node.BlockHandled around data n n' hd payload B decoded B' generated)
    (htype : Node.typeOf data = some .block) (hdata : p.Honest data)
    (honce : p.HandsOnce n (.datagram around data peer)) :
    ∀ packet ∈ generated, p.Honest packet := by
  have hgenerated := hhandled.generated_ok
  rcases hhandled.outcome with ⟨-, -, rfl⟩ | ⟨hundecoded, -, -⟩
  · -- a decoded block generates nothing
    cases hgenerated
    exact fun _ hpacket => absurd hpacket List.not_mem_nil
  cases decoded with
  | false =>
      cases hgenerated
      exact fun _ hpacket => absurd hpacket List.not_mem_nil
  | true =>
      rw [Node.generate, if_pos rfl] at hgenerated
      refine honest_of_packets hlimit (fun hkey => ?_) hgenerated
      obtain ⟨index, hindex, hsymbol⟩ := hdata ⟨htype, hd, hhandled.header_ok, hkey⟩
      obtain ⟨hix, hsize, hpayload⟩ := hsymbol.read hindex hhandled.header_ok hhandled.payload_ok
      have hcollecting := h.tracks.blockFor hkey hsize hhandled.blockFor hundecoded
      have hB : n.blocks p.key = some B ∨ n.blocks p.key = none ∧ B.fec.decodeCalls = [] := by
        rw [← hkey]
        exact hhandled.blockFor.imp_right fun hnew => ⟨hnew.1, (Block.ofSize_fresh hnew.2).2.1⟩
      have hnodup := h.distinct.nodup honce hhandled.survives hindex hsymbol hB hcollecting
      have hcall := hhandled.processed
      rw [hix] at hcall
      exact hcollecting.serves hrecovers hreencodes htwo hlimit hindex hpayload hnodup hcall

/-- What a step queues are symbols of the block if they claim to be. -/
theorem PassesOn.step {e : Node.Event ε} (h : p.PassesOn n) (hstep : Node.Step n e n')
    (harrives : ∀ around data peer, e = .datagram around data peer → p.Honest data)
    (honce : p.HandsOnce n e) : p.PassesOn n' := by
  have hhonest : p.HonestStep n e n' := by
    refine ⟨hstep, ?_⟩
    intro around data peer heq htype hd hheader hkey _
    exact harrives around data peer heq ⟨htype, hd, hheader, hkey⟩
  have hmessage := ne_nil_of_two_le htwo
  have hreliable := h.distinct.recoversIn hrecovers htwo hlimit honce
  refine ⟨h.tracks.step hmessage hhonest hreliable,
    h.distinct_step hhonest honce, ?_, ?_⟩
  · intro B hB hdecoded
    rcases h.tracks.step_cases hmessage hhonest hreliable with hsame |
      ⟨B₀, B', index, data, generated, hadvances⟩
    · rw [hsame] at hB
      exact h.held B hB hdecoded
    · obtain rfl : B' = B := Option.some.inj (hadvances.after.symm.trans hB)
      rcases hadvances.outcome with hcollecting | ⟨hmessage, -⟩
      · exact absurd hcollecting.collects.undecoded hdecoded
      · exact hmessage
  · intro channelId peer data hdata
    rcases Node.step_cases hstep with hquiet | ⟨around, packet, peer', rfl, hcases⟩
    · rw [hquiet.queued] at hdata
      exact h.queued channelId peer data hdata
    have hpacket := harrives around packet peer' rfl
    rcases hcases with ⟨htype, hd, payload, B, decoded, B', generated, hhandled⟩ |
      ⟨-, hd, payload, d₁, d₂, s₁, symbols, e₁, acks, hhandled⟩ | ⟨-, hack⟩
    · obtain ⟨-, -, -, hqueues⟩ := hhandled.effect
      rcases hqueues.mem_queuedTo hdata with hold | hnew
      · exact h.queued channelId peer data hold
      rcases List.mem_cons.mp hnew with rfl | hgenerated
      · exact hpacket
      · exact h.generated hrecovers hreencodes htwo hlimit hhandled htype hpacket honce data
          hgenerated
    · -- a stream packet makes stream packets
      obtain ⟨-, -, -, -, hqueued⟩ := hhandled.effect
      rcases hqueued channelId peer with hsame | ⟨-, hmore⟩
      · exact h.queued channelId peer data (hsame ▸ hdata)
      rw [hmore] at hdata
      rcases List.mem_append.mp hdata with hold | hnew
      · exact h.queued channelId peer data hold
      · obtain ⟨symbol, -, rfl⟩ := List.mem_map.mp hnew
        apply honest_of_typeOf
        rw [Node.typeOf_makeStream]
        simp
    · obtain ⟨hd, payload, e₁, -, -, -, rfl⟩ := Node.handleStreamAck_ok hack
      exact h.queued channelId peer data hdata

end laws

end Published

/-! ## The network -/

namespace Network

/-- Wherever the block's ids are on a packet it is a symbol of the message, and a node that
holds the block's data holds the message. -/
structure Delivers (p : Published W) (w : Network W S ε) : Prop where
  queued : ∀ k channelId peer, ∀ data ∈ (w.node k).queuedTo channelId peer, p.Claims data →
    ∃ index < 2 ^ 32, p.IsSymbol index data
  held : ∀ k B, (w.node k).blocks p.key = some B → B.decoded ≠ [] → B.decoded = p.message

/-- The block is sent intact and passed on intact. -/
structure Carries (p : Published W) (w : Network W S ε) : Prop where
  sent : ∀ channelId, ∀ data ∈ w.sent channelId, Node.typeOf data = some .stream
  sentBlocks : ∀ data ∈ w.sentBlocks, p.Honest data
  node : ∀ k, p.PassesOn (w.node k)

/-- No node that is still collecting the block is handed a symbol that it has marked. -/
def HandsOnce (p : Published W) (w : Network W S ε) (e : Event W ε) : Prop :=
  ∀ k e', e = .atNode k e' → p.HandsOnce (w.node k) e'

/-- A step in which none is. -/
def StepOnce (p : Published W) (w : Network W S ε) (e : Event W ε) (w' : Network W S ε) : Prop :=
  Step w e w' ∧ HandsOnce p w e

/-- Whoever sends a block under the ids of `p` sends its message. -/
def PublishesOnly (p : Published W) (e : Event W ε) : Prop :=
  ∀ channelId blockId block, e = .sendBlock channelId blockId block →
    (channelId, blockId) = p.key → Block.ofData p.message = .ok block

variable {p : Published W} {w w' : Network W S ε}

theorem carries_init : Carries p ({} : Network W S ε) where
  sent _ _ hdata := absurd hdata List.not_mem_nil
  sentBlocks _ hdata := absurd hdata List.not_mem_nil
  node _ := Published.passesOn_init

/-- What is on its way is a symbol of the block if it claims to be. -/
theorem Carries.inFlight (h : Carries p w) {k : Nat} {data : Bytes} (hdata : w.InFlight k data) :
    p.Honest data := by
  cases k with
  | zero =>
      rcases hdata with ⟨channelId, hsent⟩ | hblock
      · apply Published.honest_of_typeOf
        rw [h.sent channelId data hsent]
        simp
      · exact h.sentBlocks data hblock
  | succ k =>
      obtain ⟨channelId, peer, hqueued⟩ := hdata
      exact (h.node k).queued channelId peer data hqueued

theorem Carries.step (hrecovers : W.RecoversDistinct) (hreencodes : W.ReencodesDistinct)
    (htwo : 2 ≤ Chunks.count maxBlockPacketSize p.message.length)
    (hlimit : Chunks.count maxBlockPacketSize p.message.length ≤ 64000) {e : Event W ε}
    (h : Carries p w) (hpublishes : PublishesOnly p e) (hstep : Step w e w')
    (honce : HandsOnce p w e) : Carries p w' := by
  cases hstep with
  | @atPublisher c channelId e hat hchain =>
      have hnode := node_of_atPublisher hat hchain
      refine ⟨?_, h.sentBlocks, h.node⟩
      intro other data hdata
      show Node.typeOf data = some .stream
      by_cases hother : other = channelId
      · subst hother
        have hdata : data ∈ c.sent := by simpa [withChain] using hdata
        rcases sent_of_step hchain data hdata with hold | hnew
        · exact h.sent other data hold
        · exact hnew
      · refine h.sent other data ?_
        simpa [withChain, hother] using hdata
  | @sendBlock channelId blockId block packets hpackets =>
      refine ⟨h.sent, ?_, h.node⟩
      intro data hdata
      rcases List.mem_append.mp hdata with hold | hnew
      · exact h.sentBlocks data hold
      · exact Published.honest_of_packets hlimit (fun hkey => Published.serves_ofData hlimit
          (hpublishes channelId blockId block rfl hkey)) hpackets data hnew
  | @atNode k e n hnode harrives =>
      refine ⟨h.sent, h.sentBlocks, ?_⟩
      intro k'
      show p.PassesOn (Function.update w.node k n k')
      by_cases hk : k' = k
      · subst hk
        rw [Function.update_self]
        refine (h.node k').step hrecovers hreencodes htwo hlimit hnode ?_ (honce k' e rfl)
        intro around data peer heq hclaims
        exact h.inFlight (harrives around data peer heq (Or.inr hclaims.1)) hclaims
      · rw [Function.update_of_ne hk]
        exact h.node k'

/-- **Integrity.** In every run in which only its message is published under the ids of a
block, and no node that is still collecting it is handed a symbol again, every symbol that
travels and every block that is decoded is of that message. -/
theorem delivers_block (hrecovers : W.RecoversDistinct) (hreencodes : W.ReencodesDistinct)
    (p : Published W) (htwo : 2 ≤ Chunks.count maxBlockPacketSize p.message.length)
    (hlimit : Chunks.count maxBlockPacketSize p.message.length ≤ 64000)
    {es : List (Event W ε)} {w : Network W S ε}
    (hrun : Run (StepOnce p) {} es w)
    (hes : ∀ e ∈ es, PublishesOnly p e) : w.Delivers p := by
  have hcarries : Carries p w := Run.invariant_of_events
    (fun _ _ _ hs hpublishes hs' =>
      hs.step hrecovers hreencodes htwo hlimit hpublishes hs'.1 hs'.2) hrun hes carries_init
  exact ⟨fun k channelId peer data hdata hclaims =>
    (hcarries.node k).queued channelId peer data hdata hclaims, fun k => (hcarries.node k).held⟩

/-! ## A run

The block of two symbols is sent, a peer subscribes to the first node, and the node decodes
the block once symbol 0 arrived again after it was lost. -/

def twoSymbolsBlock : Block replicating where
  blockSize := 1377
  decoded := Published.twoSymbols.message
  fec := { wirehair := Published.twoSymbols.encoder }

theorem ofData_twoSymbols :
    Block.ofData Published.twoSymbols.message = .ok twoSymbolsBlock := by
  have hlength : u32 Published.twoSymbols.message.length = 1377 := by decide +kernel
  refine Block.ofData_ok_iff.mpr ⟨_, Published.twoSymbols.created, ?_⟩
  rw [hlength]
  rfl

/-- The packets of the block: its symbols, and a recovery symbol. -/
def twoSymbolsSent : List Bytes :=
  [Published.twoSymbolPacket 0, Published.twoSymbolPacket 1,
    Packet.makeBlock (Chunks.chunk maxBlockPacketSize Published.twoSymbols.message 0) 1 1 1377 2]

/-- The network once the block was sent and its first node is `n`. -/
def networkAt (n : Node replicating echoing Nat) : Network replicating echoing Nat :=
  withNode { sentBlocks := twoSymbolsSent } 0 n

/-- The first node once it decoded the block. -/
def decodedNode : Node replicating echoing Nat :=
  Published.nodeAfter (Published.nodeAfter Published.subscribedNode
    (Published.twoSymbolPacket 0) 9) (Published.twoSymbolPacket 1) 9

theorem step_networkAt {n : Node replicating echoing Nat} {data : Bytes} {peer : Nat}
    (hdata : data ∈ twoSymbolsSent ∨ Node.typeOf data = some .control)
    (h : Method.returned (Node.handlePacket Published.someSurroundings data peer n) = some ()) :
    Step (networkAt n) (.atNode 0 (.datagram Published.someSurroundings data peer))
      (networkAt (Published.nodeAfter n data peer)) := by
  have hstep := Published.step_nodeAfter h
  have hafter : (networkAt n).withNode 0 (Published.nodeAfter n data peer) =
      networkAt (Published.nodeAfter n data peer) := by
    simp [networkAt, withNode]
  have hnode : (networkAt n).node 0 = n := by
    simp [networkAt, withNode]
  rw [← hafter]
  refine .atNode (hnode.symm ▸ hstep) ?_
  intro around data' peer' heq htype
  cases heq
  rcases hdata with hsent | hcontrol
  · exact Or.inr hsent
  · simp [hcontrol] at htype

/-- The first node is handed a packet that is no symbol its block has marked. -/
theorem handsOnce_networkAt {n : Node replicating echoing Nat} {data : Bytes} {peer : Nat}
    (h : ∀ index < 2 ^ 32, Published.twoSymbols.IsSymbol index data →
      (n.blocks Published.twoSymbols.key).all (fun B => !Block.marked B.symbolsSeen index) = true) :
    HandsOnce Published.twoSymbols (networkAt n)
      (.atNode 0 (.datagram Published.someSurroundings data peer)) := by
  intro k e heq around data' peer' heq' _ index hindex hsymbol B hB _
  cases heq
  cases heq'
  have hnode : (networkAt n).node 0 = n := by
    simp [networkAt, withNode]
  have hall := h index hindex hsymbol
  rw [← hnode, hB] at hall
  simpa using hall

/-- What travels in the run is the block, and the first node holds it. -/
theorem delivers_block_two_symbols : Delivers Published.twoSymbols (networkAt decodedNode) ∧
    ((networkAt decodedNode).node 0).blocks Published.twoSymbols.key ≠ none := by
  have hpackets : blockPacketRange twoSymbolsBlock 1 1 redundancy = .ok twoSymbolsSent := by
    decide +kernel
  have hsend : Step ({} : Network replicating echoing Nat) (.sendBlock 1 1 twoSymbolsBlock)
      (networkAt {}) := by
    have hstart : networkAt {} = { sentBlocks := twoSymbolsSent } := by
      simp [networkAt, withNode]
    rw [hstart]
    exact .sendBlock hpackets
  have hfirst : Published.twoSymbolPacket 0 ∈ twoSymbolsSent := List.mem_cons_self
  have hsecond : Published.twoSymbolPacket 1 ∈ twoSymbolsSent :=
    List.mem_cons_of_mem _ List.mem_cons_self
  have hsubscribe := @step_networkAt {} (Packet.makeControl [] actionSubscribe 1 2000) 7
    (Or.inr (by decide +kernel)) (by decide +kernel)
  have hlost := @step_networkAt (Published.nodeAfter {}
    (Packet.makeControl [] actionSubscribe 1 2000) 7) _ 9 (Or.inl hfirst) (by decide +kernel)
  have hkept := @step_networkAt Published.subscribedNode _ 9 (Or.inl hfirst) (by decide +kernel)
  have hlast := @step_networkAt (Published.nodeAfter Published.subscribedNode
    (Published.twoSymbolPacket 0) 9) _ 9 (Or.inl hsecond) (by decide +kernel)
  have hnone : ∀ n : Node replicating echoing Nat,
      (n.blocks Published.twoSymbols.key).isNone = true → ∀ index,
        (n.blocks Published.twoSymbols.key).all (fun B => !Block.marked B.symbolsSeen index) =
          true := by
    intro n hn index
    rw [Option.isNone_iff_eq_none.mp hn]
    rfl
  have honce₁ := @handsOnce_networkAt {} (Packet.makeControl [] actionSubscribe 1 2000) 7
    fun index _ _ => hnone _ rfl index
  have honce₂ := @handsOnce_networkAt (Published.nodeAfter {}
    (Packet.makeControl [] actionSubscribe 1 2000) 7) (Published.twoSymbolPacket 0) 9
    fun index _ _ => hnone _ (by decide +kernel) index
  have honce₃ := @handsOnce_networkAt Published.subscribedNode (Published.twoSymbolPacket 0) 9
    fun index _ _ => hnone _ (by decide +kernel) index
  -- the block has marked symbol 0, and is handed symbol 1
  have honce₄ := @handsOnce_networkAt (Published.nodeAfter Published.subscribedNode
    (Published.twoSymbolPacket 0) 9) (Published.twoSymbolPacket 1) 9 (by
      intro index hindex hsymbol
      obtain ⟨rfl, -⟩ := hsymbol.read hindex (Packet.header_ofHeader ..) (Packet.payload_ofHeader ..)
      decide +kernel)
  have hrun : Run (StepOnce Published.twoSymbols) {} _ (networkAt decodedNode) :=
    .snoc (.snoc (.snoc (.snoc (.single ⟨hsend, nofun⟩) ⟨hsubscribe, honce₁⟩) ⟨hlost, honce₂⟩)
      ⟨hkept, honce₃⟩) ⟨hlast, honce₄⟩
  refine ⟨delivers_block Replica.recovers.distinct Replica.reencodesDistinct
    Published.twoSymbols (by decide +kernel) (by decide +kernel) hrun ?_, ?_⟩
  · intro e he channelId blockId block heq _
    simp only [List.mem_append, List.mem_singleton] at he
    rcases he with (((rfl | rfl) | rfl) | rfl) | rfl
    · cases heq
      exact ofData_twoSymbols
    all_goals cases heq
  · have hsome : ((networkAt decodedNode).node 0).blocks Published.twoSymbols.key |>.isSome := by
      decide +kernel
    exact Option.isSome_iff_ne_none.mp hsome

end Network

end FecRelay
