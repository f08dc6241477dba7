import FecRelay.Base.Run
import FecRelay.Codec.Echo
import FecRelay.Reception
import FecRelay.Steps

/-!
# A node relays a block completely

Symbols of a block are forwarded as they arrive, and once the block is decoded the
symbols that were not seen are generated. Together they are all original symbols
for a peer that was there from the start, and as many symbols as are asked for for
a peer that came later.
-/

namespace FecRelay

open FecRelay.Base

/-- A block that somebody publishes: its message, with an encoder for it, and the ids it
is sent under. -/
structure Published (W : Wirehair) where
  message : Bytes
  encoder : W.Codec
  created : W.encoderCreate message maxBlockPacketSize = some encoder
  channelId : UInt32
  blockId : UInt32

namespace Published

variable {W : Wirehair} {S : Siamese} {ε : Type} [LinearOrder ε]

section statements

variable (p : Published W)

/-- The block's key in a node. -/
def key : UInt32 × UInt32 := (p.channelId, p.blockId)

/-! ## Honest traffic -/

/-- `data` is symbol `index` of the block under the size of the message. -/
def IsSymbol (index : Nat) (data : Bytes) : Prop :=
  ∃ payload size, data =
      Packet.makeBlock payload p.channelId p.blockId size (UInt32.ofNat index) ∧
    size.toNat = p.message.length ∧
    W.SymbolOf p.message maxBlockPacketSize p.encoder index payload

/-- A step in which a packet that claims to be of the block is one, or is lost. -/
structure HonestStep (n : Node W S ε) (e : Node.Event ε) (n' : Node W S ε) : Prop where
  step : Node.Step n e n'
  honest : ∀ around data peer, e = .datagram around data peer →
    Node.typeOf data = some .block →
    ∀ h, Packet.header BlockPacketHeader data = .ok h → (h.channelId, h.blockId) = p.key →
      n.packetSeq % loseEvery ≠ 0 → ∃ index < 2 ^ 32, p.IsSymbol index data

/-- The block becomes decoded. -/
def Decodes (n n' : Node W S ε) : Prop :=
  (∀ B, n.blocks p.key = some B → B.decoded = []) ∧
    ∃ B, n'.blocks p.key = some B ∧ B.decoded ≠ []

/-- Symbol `index` was queued to a peer. -/
def QueuedTo (n : Node W S ε) (peer : ε) (index : Nat) : Prop :=
  ∃ data ∈ n.queuedTo p.channelId peer, p.IsSymbol index data

/-- Between `m` and `n` the block was given symbols, and the step to `n'` decoded it. Then
a peer that had subscribed when the block was not there yet has been queued all original
symbols, and a peer that had subscribed before the last step as many symbols as were asked
for, which are at least as many as the original ones. -/
def RelayedCompletely (m n n' : Node W S ε) : Prop :=
  ∃ B, n'.blocks p.key = some B ∧ B.decoded = p.message ∧
    B.nOriginal ≤ redundancy B.nOriginal ∧
    (∀ peer, m.blocks p.key = none → m.Subscribed p.channelId peer → ∀ i < B.nOriginal,
      Packet.makeBlock (Chunks.chunk maxBlockPacketSize p.message i) p.channelId p.blockId
        (UInt32.ofNat p.message.length) (UInt32.ofNat i) ∈ n'.queuedTo p.channelId peer) ∧
    ∀ peer, n.Subscribed p.channelId peer → ∃ indices : List Nat, indices.Nodup ∧
      redundancy B.nOriginal ≤ indices.length ∧ ∀ i ∈ indices, i < 2 ^ 32 ∧
        ∃ symbol, Packet.makeBlock symbol p.channelId p.blockId
          (UInt32.ofNat p.message.length) (UInt32.ofNat i) ∈ n'.queuedTo p.channelId peer

/-! ## The invariants -/

/-- A block that has only been given symbols of the message, no more of them than
packets were counted. -/
structure Collecting (packets : Int) (B : Block W) : Prop where
  collects : Block.Collects p.message p.encoder B.fec.decodeCalls.reverse B
  marks : ∀ id ∈ B.fec.decodeCalls, Block.marked B.symbolsSeen id = true
  size_eq : B.blockSize = p.message.length
  count : (B.symbolsSeen.count true : Int) ≤ packets

/-- The block is still collecting unless it is decoded. -/
structure Tracks (n : Node W S ε) : Prop where
  nonneg : 0 ≤ n.packetSeq
  bounded : n.packetSeq ≤ intMax
  collecting : ∀ B, n.blocks p.key = some B → B.decoded = [] → p.Collecting n.packetSeq B

/-- Where a symbol is handed to the block, or to a new one, success means that the message
is recovered. -/
def RecoversIn (n : Node W S ε) (e : Node.Event ε) : Prop :=
  ∀ around data peer, e = .datagram around data peer → n.packetSeq % loseEvery ≠ 0 →
    ∀ index < 2 ^ 32, p.IsSymbol index data →
      ∀ B, n.blocks p.key = some B ∨ n.blocks p.key = none ∧ B.fec.decodeCalls = [] →
        p.Collecting n.packetSeq B →
        W.RecoversAt p.message maxBlockPacketSize B.fec.decodeCalls.reverse index

/-- A subscriber was queued every symbol that the block was given. -/
structure KeepsUp (peer : ε) (n : Node W S ε) : Prop where
  subscribed : n.Subscribed p.channelId peer
  forwarded : ∀ B, n.blocks p.key = some B → B.decoded = [] →
    ∀ i, Block.marked B.symbolsSeen i = true → p.QueuedTo n peer i

end statements

variable {p : Published W}

theorem tracks_init : p.Tracks ({} : Node W S ε) where
  nonneg := le_rfl
  bounded := show (0 : Int) ≤ intMax by decide
  collecting _ hB := by cases hB

theorem message_ne_nil (hrefuses : W.RefusesEmpty) : p.message ≠ [] := by
  intro hnil
  have hcreated := p.created
  rw [hnil, hrefuses] at hcreated
  cases hcreated

theorem recoversIn_of_recovers (hlaw : W.Recovers) (n : Node W S ε) (e : Node.Event ε) :
    p.RecoversIn n e := fun _ _ _ _ _ _ _ _ _ _ _ => hlaw _ _ _ _

/-! ## A packet of the block -/

/-- What a packet of the block is read as. -/
theorem IsSymbol.read {index : Nat} {data : Bytes} (h : p.IsSymbol index data)
    (hindex : index < 2 ^ 32) {hd : BlockPacketHeader} {payload : Bytes}
    (hheader : Packet.header BlockPacketHeader data = .ok hd)
    (hpayload : Packet.payload BlockPacketHeader data = .ok payload) :
    hd.packetIndex.toNat = index ∧ hd.blockSize.toNat = p.message.length ∧
      W.SymbolOf p.message maxBlockPacketSize p.encoder index payload := by
  obtain ⟨symbol, size, rfl, hsize, hsymbol⟩ := h
  unfold Packet.makeBlock at hheader hpayload
  rw [Packet.header_ofHeader] at hheader
  rw [Packet.payload_ofHeader] at hpayload
  cases hheader
  cases hpayload
  exact ⟨UInt32.toNat_ofNat_of_lt' hindex, hsize, hsymbol⟩

/-- A block that is made for a packet of the block, or collects already, collects. -/
theorem Tracks.blockFor {n : Node W S ε} (h : p.Tracks n) {hd : BlockPacketHeader} {B : Block W}
    (hkey : (hd.channelId, hd.blockId) = p.key) (hsize : hd.blockSize.toNat = p.message.length)
    (hB : n.BlockFor hd B) (hundecoded : B.decoded = []) : p.Collecting n.packetSeq B := by
  rcases hB with hB | ⟨_, hmade⟩
  · exact h.collecting B (hkey ▸ hB) hundecoded
  · rw [hsize] at hmade
    obtain ⟨decoder, hdecoder, rfl⟩ := Block.ofSize_ok_iff.mp hmade
    have hlength : p.message.length < 2 ^ 32 := hsize ▸ hd.blockSize.toNat_lt
    refine ⟨⟨rfl, u32_of_lt hlength, .create hdecoder⟩, fun _ hid => absurd hid List.not_mem_nil,
      rfl, ?_⟩
    show ((List.replicate _ false).count true : Int) ≤ n.packetSeq
    rw [List.count_replicate]
    exact h.nonneg

/-- A collecting block is given one more symbol: it goes on, or it has the message. -/
theorem Collecting.processSymbol (hmessage : p.message ≠ []) {packets : Int}
    {B B' : Block W} (h : p.Collecting packets B) {payload : Bytes} {index : Nat}
    (hindex : index < 2 ^ 32)
    (hsymbol : W.SymbolOf p.message maxBlockPacketSize p.encoder index payload)
    (hlaw : W.RecoversAt p.message maxBlockPacketSize B.fec.decodeCalls.reverse index)
    {decoded : Bool} (hcall : Block.processSymbol payload index B = .ok decoded B') :
    (decoded = false ∧ p.Collecting (packets + 1) B') ∨
      (decoded = true ∧ B'.decoded = p.message) := by
  obtain ⟨hmarks, hsize⟩ := Block.processSymbol_marks h.collects.undecoded hcall
  have hcalls := Block.processSymbol_calls h.collects.undecoded hcall
  rw [u32_of_lt hindex] at hcalls
  have hcount := Block.count_mark_le B.symbolsSeen index
  rcases h.collects.processSymbol hmessage p.created hindex hsymbol hlaw with
    ⟨hfalse, hgoes⟩ | ⟨B₁, heq, hdecoded⟩
  · rw [hcall] at hfalse hgoes
    refine Or.inl ⟨?_, ?_, ?_, hsize.trans h.size_eq, ?_⟩
    · cases decoded with
      | false => rfl
      | true => exact absurd rfl hfalse
    · rw [hcalls, List.reverse_append]
      exact hgoes
    · rw [hcalls, hmarks, List.forall_mem_append, List.forall_mem_singleton]
      simp only [Block.marked_mark, Bool.or_eq_true, decide_eq_true_eq]
      exact ⟨fun id hid => Or.inr (h.marks id hid), Or.inl trivial⟩
    · have := h.count
      rw [hmarks]
      omega
  · rw [hcall] at heq
    cases heq
    exact Or.inr ⟨rfl, hdecoded⟩

theorem Collecting.mono {packets packets' : Int} {B : Block W} (h : p.Collecting packets B)
    (hle : packets ≤ packets') : p.Collecting packets' B :=
  ⟨h.collects, h.marks, h.size_eq, le_trans h.count hle⟩

/-! ## Steps -/

/-- The block `B`, which is there or is made, is given symbol `index` in packet `data` and
becomes `B'`. Subscribers are queued the packet, and what is generated if this decodes
the block. -/
structure Advances (p : Published W) (n n' : Node W S ε) (B B' : Block W) (index : Nat)
    (data : Bytes) (generated : List Bytes) : Prop where
  packetSeq : n'.packetSeq = n.packetSeq + 1
  before : n.blocks p.key = some B ∨ n.blocks p.key = none ∧ B.fec.decodeCalls = [] ∧
    ∀ i, Block.marked B.symbolsSeen i = false
  after : n'.blocks p.key = some B'
  collecting : p.Collecting n.packetSeq B
  symbol : p.IsSymbol index data
  marks : B'.symbolsSeen = Block.mark B.symbolsSeen index
  calls : B'.fec.decodeCalls = B.fec.decodeCalls ++ [index]
  size_eq : B'.blockSize = p.message.length
  queued : ∀ peer, n.Subscribed p.channelId peer →
    n'.queuedTo p.channelId peer = n.queuedTo p.channelId peer ++ data :: generated
  outcome : p.Collecting (n.packetSeq + 1) B' ∨
    B'.decoded = p.message ∧
      blockPacketRange B' p.channelId p.blockId redundancy = .ok generated

/-- An honest step leaves the block as it is, or the block advances. -/
theorem Tracks.step_cases (hmessage : p.message ≠ []) {n n' : Node W S ε} {e : Node.Event ε}
    (h : p.Tracks n) (hstep : p.HonestStep n e n') (hlaw : p.RecoversIn n e) :
    n'.blocks p.key = n.blocks p.key ∨
      ∃ B B' index data generated, p.Advances n n' B B' index data generated := by
  rcases Node.step_blocks hstep.step with hsame | ⟨around, data, peer, hd, payload, B, decoded, B',
    generated, rfl, htype, hhandled⟩
  · exact Or.inl (congrFun hsame p.key)
  obtain ⟨hseq, _, hblocks, hqueues⟩ := hhandled.effect
  by_cases hkey : (hd.channelId, hd.blockId) = p.key
  · have hafter : n'.blocks p.key = some B' := hkey ▸ hhandled.block_after
    by_cases hundecoded : B.decoded = []
    · -- a packet of the block
      obtain ⟨index, hindex, hsymbol⟩ := hstep.honest around data peer rfl htype hd
        hhandled.header_ok hkey hhandled.survives
      obtain ⟨hix, hsize, hpayload⟩ := hsymbol.read hindex hhandled.header_ok hhandled.payload_ok
      have hcollecting := h.blockFor hkey hsize hhandled.blockFor hundecoded
      have hcall := hhandled.processed
      rw [hix] at hcall
      have hbefore : n.blocks p.key = some B ∨ n.blocks p.key = none ∧ B.fec.decodeCalls = [] ∧
          ∀ i, Block.marked B.symbolsSeen i = false := by
        rcases hhandled.blockFor with hB | ⟨hnone, hmade⟩
        · exact Or.inl (hkey ▸ hB)
        · exact Or.inr ⟨hkey ▸ hnone, (Block.ofSize_fresh hmade).2⟩
      obtain ⟨hmarks, hsize'⟩ := Block.processSymbol_marks hundecoded hcall
      have hcalls := Block.processSymbol_calls hundecoded hcall
      rw [u32_of_lt hindex] at hcalls
      have houtcome := hcollecting.processSymbol hmessage hindex hpayload
        (hlaw around data peer rfl hhandled.survives index hindex hsymbol B
          (hbefore.imp_right fun hnew => ⟨hnew.1, hnew.2.1⟩) hcollecting) hcall
      have hchannel : hd.channelId = p.channelId := congrArg Prod.fst hkey
      have hblock : hd.blockId = p.blockId := congrArg Prod.snd hkey
      refine Or.inr ⟨B, B', index, data, generated, hseq, hbefore, hafter, hcollecting, hsymbol,
        hmarks, hcalls, hsize'.trans hcollecting.size_eq, ?_, ?_⟩
      · intro subscriber hsub
        rw [← hchannel] at hsub ⊢
        exact hqueues.queued subscriber hsub
      · rcases houtcome with ⟨_, hgoes⟩ | ⟨htrue, hdecoded⟩
        · exact Or.inl hgoes
        · refine Or.inr ⟨hdecoded, ?_⟩
          rw [← hchannel, ← hblock]
          have hgenerated := hhandled.generated_ok
          rw [htrue, Node.generate, if_pos rfl] at hgenerated
          exact hgenerated
    · -- the block has its data, and the symbol is left alone
      rcases hhandled.outcome with ⟨_, rfl, _⟩ | ⟨hfresh, _⟩
      · rcases hhandled.blockFor with hB | ⟨_, hmade⟩
        · exact Or.inl (hafter.trans (hkey ▸ hB).symm)
        · exact absurd (Block.ofSize_fresh hmade).1 hundecoded
      · exact absurd hfresh hundecoded
  · apply Or.inl
    rw [hblocks, Function.update_of_ne (Ne.symm hkey)]

theorem Tracks.step (hmessage : p.message ≠ []) {n n' : Node W S ε} {e : Node.Event ε}
    (h : p.Tracks n) (hstep : p.HonestStep n e n') (hlaw : p.RecoversIn n e) : p.Tracks n' := by
  have hseq := (Node.step_grows hstep.step).packetSeq
  have hnonneg := h.nonneg
  have hbounded := h.bounded
  refine ⟨by omega, by omega, ?_⟩
  intro B₁ hB₁ hundecoded
  rcases h.step_cases hmessage hstep hlaw with hsame | ⟨B, B', index, data, generated, hadvances⟩
  · rw [hsame] at hB₁
    exact (h.collecting B₁ hB₁ hundecoded).mono (by omega)
  · obtain rfl : B' = B₁ := Option.some.inj (hadvances.after.symm.trans hB₁)
    rw [hadvances.packetSeq]
    rcases hadvances.outcome with hgoes | ⟨hdecoded, _⟩
    · exact hgoes
    · rw [hdecoded] at hundecoded
      exact absurd hundecoded hmessage

theorem QueuedTo.step {n n' : Node W S ε} {e : Node.Event ε} {peer : ε} {index : Nat}
    (h : p.QueuedTo n peer index) (hstep : Node.Step n e n') : p.QueuedTo n' peer index := by
  obtain ⟨data, hdata, hsymbol⟩ := h
  exact ⟨data, ((Node.step_grows hstep).queued p.channelId peer).subset hdata, hsymbol⟩

/-- A subscriber that has been queued the marked symbols of a block is queued those of
the block that it advances to. -/
theorem KeepsUp.advances {n n' : Node W S ε} {e : Node.Event ε} {peer : ε} {B B' : Block W}
    {index : Nat} {data : Bytes} {generated : List Bytes} (h : p.KeepsUp peer n)
    (hstep : Node.Step n e n') (hadvances : p.Advances n n' B B' index data generated) :
    ∀ i, Block.marked B'.symbolsSeen i = true → p.QueuedTo n' peer i := by
  intro i hmarked
  rw [hadvances.marks, Block.marked_mark, Bool.or_eq_true, decide_eq_true_eq] at hmarked
  rcases hmarked with rfl | hmarked
  · -- the symbol that was just forwarded
    refine ⟨data, ?_, hadvances.symbol⟩
    rw [hadvances.queued peer h.subscribed]
    exact List.mem_append_right _ List.mem_cons_self
  · rcases hadvances.before with hB | ⟨-, -, hnone⟩
    · have hundecoded := hadvances.collecting.collects.undecoded
      exact (h.forwarded B hB hundecoded i hmarked).step hstep
    · rw [hnone] at hmarked
      cases hmarked

theorem KeepsUp.step (hmessage : p.message ≠ []) {n n' : Node W S ε} {e : Node.Event ε}
    {peer : ε} (htracks : p.Tracks n) (h : p.KeepsUp peer n) (hstep : p.HonestStep n e n')
    (hlaw : p.RecoversIn n e) : p.KeepsUp peer n' := by
  refine ⟨(Node.step_grows hstep.step).subscribed _ _ h.subscribed, ?_⟩
  intro B₁ hB₁ hundecoded
  rcases htracks.step_cases hmessage hstep hlaw with hsame |
    ⟨B, B', index, data, generated, hadvances⟩
  · rw [hsame] at hB₁
    exact fun i hi => (h.forwarded B₁ hB₁ hundecoded i hi).step hstep.step
  · obtain rfl : B' = B₁ := Option.some.inj (hadvances.after.symm.trans hB₁)
    exact h.advances hstep.step hadvances

/-! ## Completeness -/

/-- What `block_packet_range` is asked for comes out as packets with distinct indices, which
with the marked symbols are all original symbols. -/
theorem Advances.generated_spec {n n' : Node W S ε} {B B' : Block W} {index : Nat} {data : Bytes}
    {generated : List Bytes} (h : p.Advances n n' B B' index data generated)
    (hbounded : n.packetSeq ≤ intMax) (hdecoded : B'.decoded = p.message)
    (hgenerated : blockPacketRange B' p.channelId p.blockId redundancy = .ok generated) :
    (∃ indices : List Nat, indices.Nodup ∧ indices.length = redundancy B'.nOriginal ∧
      ∀ i ∈ indices, i < 2 ^ 32 ∧ ∃ symbol, Packet.makeBlock symbol p.channelId p.blockId
        (UInt32.ofNat p.message.length) (UInt32.ofNat i) ∈ generated) ∧
    ∀ i < B'.nOriginal, Block.marked B'.symbolsSeen i = false →
      Packet.makeBlock (Chunks.chunk maxBlockPacketSize p.message i) p.channelId p.blockId
        (UInt32.ofNat p.message.length) (UInt32.ofNat i) ∈ generated := by
  have hroom : u32 (redundancy B'.nOriginal) + B'.symbolsSeen.count true ≤ 2 ^ 32 := by
    have hcount := h.collecting.count
    have hmark := Block.count_mark_le B.symbolsSeen index
    have hn := B'.nOriginal_lt
    have hredundancy := redundancy_le B'.nOriginal
    rw [B'.u32_redundancy, h.marks]
    unfold intMax at hbounded
    omega
  obtain ⟨symbols, next, hyields, rfl⟩ := blockPacketRange_yields hgenerated hroom
  rw [B'.u32_redundancy] at hyields
  rw [h.size_eq]
  have hnodup : (symbols.map (·.2)).Nodup := hyields.ascending.imp fun hlt => ne_of_lt hlt
  refine ⟨⟨symbols.map (·.2), hnodup, ?_, ?_⟩, ?_⟩
  · rw [List.length_map, hyields.length]
  · intro i hi
    obtain ⟨symbol, hsymbol, rfl⟩ := List.mem_map.mp hi
    exact ⟨(hyields.sound symbol hsymbol).2.1, symbol.1, List.mem_map_of_mem hsymbol⟩
  · intro i hi hunmarked
    have hreached := hyields.reached
    have hle := le_redundancy B'.nOriginal
    obtain ⟨symbol, hsymbol⟩ := hyields.complete i (Nat.zero_le i) (by omega) hunmarked
    -- an original symbol is a chunk of the block
    have hsize : B'.blockSize < 2 ^ 32 := by
      obtain ⟨_, size, _, hlength, _⟩ := h.symbol
      rw [h.size_eq, ← hlength]
      exact size.toNat_lt
    have hdata := (hyields.sound (symbol, i) hsymbol).2.2.2
    rw [Block.symbolData_of_lt hsize (by rw [hdecoded, h.size_eq]) hi, hdecoded] at hdata
    rw [Except.ok.inj hdata]
    exact List.mem_map_of_mem hsymbol

/-- An original symbol that was queued carries the block's bytes. -/
theorem QueuedTo.original {n : Node W S ε} {peer : ε} {i : Nat} (h : p.QueuedTo n peer i)
    (hi : i < Chunks.count maxBlockPacketSize p.message.length) :
    Packet.makeBlock (Chunks.chunk maxBlockPacketSize p.message i) p.channelId p.blockId
      (UInt32.ofNat p.message.length) (UInt32.ofNat i) ∈ n.queuedTo p.channelId peer := by
  obtain ⟨data, hdata, payload, size, rfl, hsize, hsymbol⟩ := h
  unfold Wirehair.SymbolOf at hsymbol
  rw [if_pos hi] at hsymbol
  rw [← hsymbol, ← hsize, UInt32.ofNat_toNat]
  exact hdata

theorem Advances.mem_queuedTo {n n' : Node W S ε} {B B' : Block W} {index : Nat} {data : Bytes}
    {generated : List Bytes} (h : p.Advances n n' B B' index data generated) {peer : ε}
    (hsub : n.Subscribed p.channelId peer) {packet : Bytes} (hpacket : packet ∈ generated) :
    packet ∈ n'.queuedTo p.channelId peer := by
  rw [h.queued peer hsub]
  exact List.mem_append_right _ (List.mem_cons_of_mem _ hpacket)

/-- A subscriber that kept up has been queued the original symbols once those that were not
marked are generated. -/
theorem KeepsUp.originals {n n' : Node W S ε} {e : Node.Event ε} {peer : ε} {B B' : Block W}
    {index : Nat} {data : Bytes} {generated : List Bytes} (h : p.KeepsUp peer n)
    (hstep : Node.Step n e n') (hadvances : p.Advances n n' B B' index data generated)
    (hgenerated : ∀ i < B'.nOriginal, Block.marked B'.symbolsSeen i = false →
      Packet.makeBlock (Chunks.chunk maxBlockPacketSize p.message i) p.channelId p.blockId
        (UInt32.ofNat p.message.length) (UInt32.ofNat i) ∈ generated) :
    ∀ i < B'.nOriginal,
      Packet.makeBlock (Chunks.chunk maxBlockPacketSize p.message i) p.channelId p.blockId
        (UInt32.ofNat p.message.length) (UInt32.ofNat i) ∈ n'.queuedTo p.channelId peer := by
  intro i hi
  cases hmarked : Block.marked B'.symbolsSeen i with
  | true =>
      have hsize : B'.blockSize < 2 ^ 32 := by
        obtain ⟨_, size, _, hsize, _⟩ := hadvances.symbol
        rw [hadvances.size_eq, ← hsize]
        exact size.toNat_lt
      have hcount := (Block.nOriginal_eq hsize (by omega : 1 ≤ B'.nOriginal)).1
      rw [hadvances.size_eq] at hcount
      exact (h.advances hstep hadvances i hmarked).original (hcount ▸ hi)
  | false => exact hadvances.mem_queuedTo h.subscribed (hgenerated i hi hmarked)

/-- **Completeness.** In every run in which the packets of the block that are not lost are
honest, the step that decodes the block completes its relay. -/
theorem relayed_completely (hlaw : W.Recovers) (hrefuses : W.RefusesEmpty) (p : Published W)
    {m n n' : Node W S ε} {es es' : List (Node.Event ε)} {e : Node.Event ε}
    (hrun : Run p.HonestStep {} es m) (hrun' : Run p.HonestStep m es' n)
    (hstep : p.HonestStep n e n') (hdecodes : p.Decodes n n') : p.RelayedCompletely m n n' := by
  have hmessage : p.message ≠ [] := message_ne_nil hrefuses
  have hreliable : ∀ (n : Node W S ε) (e : Node.Event ε), p.RecoversIn n e :=
    recoversIn_of_recovers hlaw
  have htracksM : p.Tracks m :=
    Run.invariant (fun _ _ _ hs hs' => hs.step hmessage hs' (hreliable _ _)) hrun tracks_init
  have htracks : p.Tracks n :=
    Run.invariant (fun _ _ _ hs hs' => hs.step hmessage hs' (hreliable _ _)) hrun' htracksM
  obtain ⟨hundecoded, B₁, hB₁, hdecodedB₁⟩ := hdecodes
  rcases htracks.step_cases hmessage hstep (hreliable _ _) with hsame |
    ⟨B, B', index, data, generated, hadvances⟩
  · -- the block would have been decoded before
    rw [hsame] at hB₁
    exact absurd (hundecoded B₁ hB₁) hdecodedB₁
  obtain rfl : B' = B₁ := Option.some.inj (hadvances.after.symm.trans hB₁)
  rcases hadvances.outcome with hgoes | ⟨hdecoded, hgenerated⟩
  · exact absurd hgoes.collects.undecoded hdecodedB₁
  obtain ⟨⟨indices, hnodup, hlength, hindices⟩, horiginal⟩ :=
    hadvances.generated_spec htracks.bounded hdecoded hgenerated
  refine ⟨B', hB₁, hdecoded, le_redundancy _, ?_, ?_⟩
  · intro peer hnone hsub
    -- the subscriber kept up until now
    have hkeepsM : p.KeepsUp peer m := by
      refine ⟨hsub, ?_⟩
      intro B₀ hB₀
      rw [hnone] at hB₀
      cases hB₀
    obtain ⟨_, hkeeps⟩ := Run.invariant (I := fun s => p.Tracks s ∧ p.KeepsUp peer s)
      (fun _ _ _ hs hs' => ⟨hs.1.step hmessage hs' (hreliable _ _),
        hs.2.step hmessage hs.1 hs' (hreliable _ _)⟩) hrun' ⟨htracksM, hkeepsM⟩
    exact hkeeps.originals hstep.step hadvances horiginal
  · intro peer hsub
    refine ⟨indices, hnodup, le_of_eq hlength.symm, ?_⟩
    intro i hi
    obtain ⟨hlt, symbol, hsymbol⟩ := hindices i hi
    exact ⟨hlt, symbol, hadvances.mem_queuedTo hsub hsymbol⟩

/-! ## A run

A peer subscribes, symbol 0 is lost, arrives again, and symbol 1 decodes the block. -/

/-- A block that is published over the replicating codec. -/
def ofMessage (message : Bytes) (h : Replica.accepts message.length maxBlockPacketSize = true) :
    Published replicating where
  message := message
  encoder := { size := message.length, blockBytes := maxBlockPacketSize, message := message }
  created := if_pos h
  channelId := 1
  blockId := 1

/-- A block of two symbols, all of whose bytes are 7. -/
def twoSymbols : Published replicating := ofMessage (List.replicate 1377 7) (by decide +kernel)

/-- Packet `index` of the block of two symbols. -/
def twoSymbolPacket (index : Nat) : Bytes :=
  Packet.makeBlock (Chunks.chunk maxBlockPacketSize twoSymbols.message index) 1 1 1377
    (UInt32.ofNat index)

def someSurroundings : Surroundings Nat := { rounds := 1, clock := fun _ _ => 0 }

/-- The node once a datagram was handled. -/
def nodeAfter (n : Node replicating echoing Nat) (data : Bytes) (peer : Nat) :
    Node replicating echoing Nat :=
  Method.after (Node.handlePacket someSurroundings data peer n)

theorem step_nodeAfter {n : Node replicating echoing Nat} {data : Bytes} {peer : Nat}
    (h : Method.returned (Node.handlePacket someSurroundings data peer n) = some ()) :
    Node.Step n (.datagram someSurroundings data peer) (nodeAfter n data peer) :=
  ⟨trivial, Method.eq_ok_of_returned h⟩

/-- The node once peer 7 subscribed and symbol 0 was lost. -/
def subscribedNode : Node replicating echoing Nat :=
  nodeAfter (nodeAfter {} (Packet.makeControl [] actionSubscribe 1 2000) 7) (twoSymbolPacket 0) 9

theorem isSymbol_twoSymbolPacket {index : Nat} (h : index < 2) :
    twoSymbols.IsSymbol index (twoSymbolPacket index) := by
  have hcount : Chunks.count maxBlockPacketSize twoSymbols.message.length = 2 := by decide +kernel
  refine ⟨_, 1377, rfl, by decide +kernel, ?_⟩
  unfold Wirehair.SymbolOf
  rw [if_pos (by omega)]

theorem honestStep_twoSymbolPacket {n : Node replicating echoing Nat} {index : Nat}
    (h : index < 2)
    (hreturned : Method.returned
      (Node.handlePacket someSurroundings (twoSymbolPacket index) 9 n) = some ()) :
    twoSymbols.HonestStep n (.datagram someSurroundings (twoSymbolPacket index) 9)
      (nodeAfter n (twoSymbolPacket index) 9) := by
  refine ⟨step_nodeAfter hreturned, ?_⟩
  intro around data peer hevent _ _ _ _ _
  cases hevent
  exact ⟨index, by omega, isSymbol_twoSymbolPacket h⟩

/-- Peer 7, which had subscribed, is queued all that it should be. -/
theorem relayed_completely_two_symbols :
    subscribedNode.Subscribed 1 7 ∧ twoSymbols.RelayedCompletely subscribedNode
      (nodeAfter subscribedNode (twoSymbolPacket 0) 9)
      (nodeAfter (nodeAfter subscribedNode (twoSymbolPacket 0) 9) (twoSymbolPacket 1) 9) := by
  have hrequest : twoSymbols.HonestStep ({} : Node replicating echoing Nat)
      (.datagram someSurroundings (Packet.makeControl [] actionSubscribe 1 2000) 7)
      (nodeAfter {} (Packet.makeControl [] actionSubscribe 1 2000) 7) := by
    refine ⟨step_nodeAfter (by decide +kernel), ?_⟩
    intro around data peer hevent htype
    cases hevent
    exact absurd htype (by decide +kernel)
  have hlost := @honestStep_twoSymbolPacket
    (nodeAfter {} (Packet.makeControl [] actionSubscribe 1 2000) 7) 0 (by decide)
    (by decide +kernel)
  have hkept := @honestStep_twoSymbolPacket subscribedNode 0 (by decide) (by decide +kernel)
  have hlast := @honestStep_twoSymbolPacket (nodeAfter subscribedNode (twoSymbolPacket 0) 9) 1
    (by decide) (by decide +kernel)
  have hsub : subscribedNode.Subscribed 1 7 := by
    unfold Node.Subscribed
    decide +kernel
  refine ⟨hsub, relayed_completely Replica.recovers Replica.refusesEmpty twoSymbols
    (.snoc (.single hrequest) hlost) (.single hkept) hlast ⟨?_, ?_⟩⟩
  · intro B hB
    have hnone : ((nodeAfter subscribedNode (twoSymbolPacket 0) 9).blocks twoSymbols.key).all
        (fun B => B.decoded == []) = true := by decide +kernel
    rw [hB] at hnone
    exact eq_of_beq hnone
  · have hsome : ((nodeAfter (nodeAfter subscribedNode (twoSymbolPacket 0) 9)
        (twoSymbolPacket 1) 9).blocks twoSymbols.key).any
        (fun B => B.decoded != []) = true := by decide +kernel
    obtain ⟨B, hB, hdecoded⟩ := (Option.any_eq_true _ _).mp hsome
    exact ⟨B, hB, bne_iff_ne.mp hdecoded⟩

end Published

end FecRelay
