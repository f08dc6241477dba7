import FecRelay.Theorems.BlockRelay
import FecRelay.Unseen

/-!
# Symbols that are sent twice

A symbol reaches a peer because it is forwarded, or because it is generated when its block
decodes. The generated indices are not marked, and a decoded block marks nothing any more.
So where every symbol arrives at most once, a peer is sent a symbol twice exactly if it was
there when the block was decoded, and one of the symbols that were generated then arrives
later.
-/

namespace FecRelay

open FecRelay.Base

variable {W : Wirehair} {S : Siamese} {ε : Type} [LinearOrder ε]

namespace Block

/-- The indices that a decoded block is passed on with: the smallest that are not marked. -/
def generatedIndices (b : Block W) : List Nat :=
  (unmarkedFrom b.symbolsSeen 0).take (redundancy b.nOriginal)

theorem nodup_generatedIndices (b : Block W) : b.generatedIndices.Nodup :=
  ((unmarkedFrom_ascending b.symbolsSeen 0).imp ne_of_lt).sublist (List.take_sublist _ _)

theorem of_mem_generatedIndices {b : Block W} {i : Nat} (h : i ∈ b.generatedIndices) :
    i < 2 ^ 32 ∧ marked b.symbolsSeen i = false :=
  (mem_unmarkedFrom.mp (List.mem_of_mem_take h)).2

end Block

namespace Node

/-! ## Symbols -/

/-- The channel, the block and the index that a block packet names. -/
def symbolOf (data : Bytes) : Option ((UInt32 × UInt32) × UInt32) :=
  if typeOf data = some .block then
    let h : BlockPacketHeader := PacketLayout.view data
    some ((h.channelId, h.blockId), h.packetIndex)
  else none

/-- The symbol that arrives. -/
def Event.symbol : Event ε → Option ((UInt32 × UInt32) × UInt32)
  | .datagram _ data _ => symbolOf data
  | _ => none

/-- The symbols that arrive, those included that are lost on purpose. -/
def arrivals (es : List (Event ε)) : List ((UInt32 × UInt32) × UInt32) :=
  es.filterMap Event.symbol

/-- The symbols ever queued to a subscriber. -/
def queuedSymbols (n : Node W S ε) (channelId : UInt32) (peer : ε) :
    List ((UInt32 × UInt32) × UInt32) :=
  (n.queuedTo channelId peer).filterMap symbolOf

/-- No symbol was queued to a subscriber more than once. -/
def SendsOnce (n : Node W S ε) : Prop :=
  ∀ channelId peer, (n.queuedSymbols channelId peer).Nodup

/-! ## Late symbols -/

/-- The peer is subscribed while the step decodes the block. -/
structure DecodesFor (key : UInt32 × UInt32) (peer : ε) (n n' : Node W S ε) : Prop where
  undecoded : ∀ B, n.blocks key = some B → B.decoded = []
  decoded : ∃ B, n'.blocks key = some B ∧ B.decoded ≠ []
  subscribed : n.Subscribed key.1 peer

/-- The peer was subscribed when one of the events decoded the block. -/
def SawDecoding (W : Wirehair) (S : Siamese) (key : UInt32 × UInt32) (peer : ε)
    (es : List (Event ε)) : Prop :=
  ∃ es₁ e es₂, es = es₁ ++ e :: es₂ ∧ ∃ m m' : Node W S ε,
    Run Step {} es₁ m ∧ Step m e m' ∧ DecodesFor key peer m m'

/-- A symbol arrives that is not lost, of a block that is decoded already, and its index is
one that the block was passed on with. -/
structure Late (n : Node W S ε) (e : Event ε) (key : UInt32 × UInt32) (i : UInt32) : Prop where
  arrives : e.symbol = some (key, i)
  survives : n.packetSeq % loseEvery ≠ 0
  generated : ∃ B, n.blocks key = some B ∧ B.decoded ≠ [] ∧ i.toNat ∈ B.generatedIndices

/-- No symbol is late while a peer is there that was there when its block was decoded. -/
def NeverLate (W : Wirehair) (S : Siamese) (es : List (Event ε)) : Prop :=
  ∀ es₁ e es₂, es = es₁ ++ e :: es₂ → ∀ m : Node W S ε, Run Step {} es₁ m →
    ∀ key i, Late m e key i → ∀ peer, ¬SawDecoding W S key peer es₁

theorem SawDecoding.append {key : UInt32 × UInt32} {peer : ε} {es : List (Event ε)}
    (h : SawDecoding W S key peer es) (es' : List (Event ε)) :
    SawDecoding W S key peer (es ++ es') := by
  obtain ⟨es₁, e, es₂, rfl, hdecodes⟩ := h
  exact ⟨es₁, e, es₂ ++ es', by simp, hdecodes⟩

theorem NeverLate.of_append {es es' : List (Event ε)} (h : NeverLate W S (es ++ es')) :
    NeverLate W S es := by
  intro es₁ e es₂ hes
  exact h es₁ e (es₂ ++ es') (by simp [hes])

@[simp] theorem symbolOf_makeBlock (payload : Bytes) (channelId blockId blockSize index : UInt32) :
    symbolOf (Packet.makeBlock payload channelId blockId blockSize index) =
      some ((channelId, blockId), index) := by
  have hview : (PacketLayout.view (Packet.makeBlock payload channelId blockId blockSize index) :
      BlockPacketHeader) = _ := PacketLayout.view_fields _ payload
  simp [symbolOf, hview]

theorem symbolOf_of_header {data : Bytes} {h : BlockPacketHeader}
    (htype : typeOf data = some .block) (hheader : Packet.header BlockPacketHeader data = .ok h) :
    symbolOf data = some ((h.channelId, h.blockId), h.packetIndex) := by
  obtain ⟨-, rfl⟩ := Packet.header_ok_iff.mp hheader
  simp [symbolOf, htype]

theorem symbolOf_of_ne {data : Bytes} (h : typeOf data ≠ some .block) : symbolOf data = none :=
  if_neg h

/-! ## What a step does to blocks and symbols -/

theorem Step.deterministic ⦃n : Node W S ε⦄ ⦃e : Event ε⦄ ⦃n₁ n₂ : Node W S ε⦄
    (h₁ : Step n e n₁) (h₂ : Step n e n₂) : n₁ = n₂ := by
  have hresult := h₁.result.symm.trans h₂.result
  cases hresult
  rfl

/-- A decoded block stays as it is. -/
theorem Step.blocks_of_decoded {n n' : Node W S ε} {e : Event ε} (h : Step n e n')
    {key : UInt32 × UInt32} {B : Block W} (hB : n.blocks key = some B) (hdecoded : B.decoded ≠ []) :
    n'.blocks key = some B := by
  rcases step_blocks h with hsame | ⟨around, data, peer, hd, payload, B₀, decoded, B', generated,
    rfl, htype, hhandled⟩
  · rw [hsame, hB]
  obtain ⟨-, -, hblocks, -⟩ := hhandled.effect
  by_cases hkey : key = (hd.channelId, hd.blockId)
  · subst hkey
    obtain rfl := hhandled.blockFor.of_some hB
    rcases hhandled.outcome with ⟨-, rfl, -⟩ | ⟨hundecoded, -⟩
    · exact hhandled.block_after
    · exact absurd hundecoded hdecoded
  · rw [hblocks, Function.update_of_ne hkey, hB]

theorem run_blocks_of_decoded {n n' : Node W S ε} {es : List (Event ε)} (h : Run Step n es n')
    {key : UInt32 × UInt32} {B : Block W} (hB : n.blocks key = some B) (hdecoded : B.decoded ≠ []) :
    n'.blocks key = some B :=
  Run.invariant (I := fun s => s.blocks key = some B)
    (fun _ _ _ hs hstep => hstep.blocks_of_decoded hs hdecoded) h hB

theorem run_subscribed {n n' : Node W S ε} {es : List (Event ε)} (h : Run Step n es n')
    {channelId : UInt32} {peer : ε} (hsub : n.Subscribed channelId peer) :
    n'.Subscribed channelId peer :=
  Run.invariant (I := fun s => s.Subscribed channelId peer)
    (fun _ _ _ hs hstep => (step_grows hstep).subscribed _ _ hs) h hsub

/-- What was queued stays on record. -/
theorem run_queuedSymbols {n n' : Node W S ε} {es : List (Event ε)} (h : Run Step n es n')
    (channelId : UInt32) (peer : ε) :
    (n.queuedSymbols channelId peer).Sublist (n'.queuedSymbols channelId peer) := by
  refine Run.invariant (I := fun s => (n.queuedSymbols channelId peer).Sublist
    (s.queuedSymbols channelId peer)) (fun s e t hs hstep => hs.trans ?_) h (List.Sublist.refl _)
  exact ((step_grows hstep).queued channelId peer).sublist.filterMap symbolOf

/-! ## What is generated -/

/-- Packets are counted as far as an `int` goes, and no block has more marks than that. -/
structure Counts (n : Node W S ε) : Prop where
  nonneg : 0 ≤ n.packetSeq
  bounded : n.packetSeq ≤ intMax
  marks : ∀ key B, n.blocks key = some B → (B.symbolsSeen.count true : Int) ≤ n.packetSeq

theorem counts_init : Counts ({} : Node W S ε) where
  nonneg := le_rfl
  bounded := show (0 : Int) ≤ intMax by decide
  marks _ _ hB := by cases hB

/-- The block that a packet is for has no more marks than packets were counted. -/
theorem Counts.blockFor {n : Node W S ε} (h : Counts n) {hd : BlockPacketHeader} {B : Block W}
    (hB : n.BlockFor hd B) : (B.symbolsSeen.count true : Int) ≤ n.packetSeq := by
  rcases hB with hB | ⟨-, hmade⟩
  · exact h.marks _ B hB
  · obtain ⟨decoder, -, rfl⟩ := Block.ofSize_ok_iff.mp hmade
    rw [List.count_replicate]
    exact h.nonneg

/-- A block packet adds at most one mark. -/
theorem BlockHandled.count_le {around : Surroundings ε} {data : Bytes} {n n' : Node W S ε}
    {hd : BlockPacketHeader} {payload : Bytes} {B B' : Block W} {decoded : Bool}
    {generated : List Bytes} (h : BlockHandled around data n n' hd payload B decoded B' generated)
    (hcounts : Counts n) : (B'.symbolsSeen.count true : Int) ≤ n.packetSeq + 1 := by
  have hcount := hcounts.blockFor h.blockFor
  rcases h.outcome with ⟨-, rfl, -⟩ | ⟨-, hmarks, -⟩
  · omega
  · have hmark := Block.count_mark_le B.symbolsSeen hd.packetIndex.toNat
    rw [hmarks]
    omega

theorem Counts.step {n n' : Node W S ε} {e : Event ε} (h : Counts n) (hstep : Step n e n') :
    Counts n' := by
  have hseq := (step_grows hstep).packetSeq
  have hnonneg := h.nonneg
  have hbounded := h.bounded
  refine ⟨by omega, by omega, ?_⟩
  intro key B₁ hB₁
  rcases step_blocks hstep with hsame | ⟨around, data, peer, hd, payload, B, decoded, B', generated,
    rfl, htype, hhandled⟩
  · rw [hsame] at hB₁
    have := h.marks key B₁ hB₁
    omega
  obtain ⟨hcounted, -, hblocks, -⟩ := hhandled.effect
  rw [hblocks] at hB₁
  by_cases hkey : key = (hd.channelId, hd.blockId)
  · rw [hkey, Function.update_self] at hB₁
    cases hB₁
    rw [hcounted]
    exact hhandled.count_le h
  · rw [Function.update_of_ne hkey] at hB₁
    have := h.marks key B₁ hB₁
    omega

/-- The packets that are generated name the generated indices. -/
theorem symbols_of_blockPacketRange {B : Block W} {channelId blockId : UInt32}
    {generated : List Bytes} (h : blockPacketRange B channelId blockId redundancy = .ok generated)
    (hcount : (B.symbolsSeen.count true : Int) ≤ intMax + 1) :
    generated.filterMap symbolOf =
      B.generatedIndices.map fun i => ((channelId, blockId), UInt32.ofNat i) := by
  obtain ⟨symbols, next, hrange, rfl⟩ := blockPacketRange_ok h
  rw [B.u32_redundancy] at hrange
  -- so few are marked that enough indices are left
  have hroom : redundancy B.nOriginal ≤ (Block.unmarkedFrom B.symbolsSeen 0).length := by
    have hleft := Block.le_length_unmarkedFrom B.symbolsSeen (2 ^ 32) 0 (by omega)
    have hn := B.nOriginal_lt
    have hredundancy := redundancy_le B.nOriginal
    rw [List.drop_zero] at hleft
    unfold intMax at hcount
    omega
  have hindices := Block.indices_of_unseenRange _ 0 hroom hrange
  unfold Block.generatedIndices
  rw [← hindices, List.map_map, List.filterMap_map]
  have hsymbols : symbolOf ∘ (fun symbol : Bytes × Nat => Packet.makeBlock symbol.1 channelId
      blockId (UInt32.ofNat B.blockSize) (UInt32.ofNat symbol.2)) = fun symbol =>
      some ((channelId, blockId), UInt32.ofNat symbol.2) := by
    funext symbol
    exact symbolOf_makeBlock _ _ _ _ _
  rw [hsymbols, List.filterMap_eq_map']
  rfl

/-- What a block packet that was not lost queues: itself, and the generated symbols if it
decodes the block. -/
theorem BlockHandled.generatedSymbols {around : Surroundings ε} {data : Bytes}
    {n n' : Node W S ε} {hd : BlockPacketHeader} {payload : Bytes} {B B' : Block W}
    {decoded : Bool} {generated : List Bytes}
    (h : BlockHandled around data n n' hd payload B decoded B' generated) (hcounts : Counts n) :
    generated.filterMap symbolOf = if decoded then
      B'.generatedIndices.map fun i => ((hd.channelId, hd.blockId), UInt32.ofNat i) else [] := by
  have hgenerated := h.generated_ok
  cases decoded with
  | true =>
      have hcount := h.count_le hcounts
      have hbounded := hcounts.bounded
      rw [generate, if_pos rfl] at hgenerated
      rw [symbols_of_blockPacketRange hgenerated (by omega), if_pos rfl]
  | false =>
      cases hgenerated
      rfl

/-- Nothing but a block packet changes blocks or queues symbols. -/
theorem step_symbols {n n' : Node W S ε} {e : Event ε} (h : Step n e n') :
    (n'.blocks = n.blocks ∧
      ∀ channelId peer, n'.queuedSymbols channelId peer = n.queuedSymbols channelId peer) ∨
    ∃ around data peer hd payload B decoded B' generated,
      e = .datagram around data peer ∧ typeOf data = some .block ∧
        BlockHandled around data n n' hd payload B decoded B' generated := by
  unfold queuedSymbols
  rcases step_cases h with hquiet | ⟨around, data, peer, rfl, hcases⟩
  · exact Or.inl ⟨hquiet.blocks, fun c p => by rw [hquiet.queued]⟩
  rcases hcases with ⟨htype, hd, payload, B, decoded, B', generated, hhandled⟩ |
    ⟨-, hd, payload, d₁, d₂, s₁, symbols, e₁, acks, hhandled⟩ | ⟨-, hack⟩
  · exact Or.inr ⟨around, data, peer, hd, payload, B, decoded, B', generated, rfl, htype, hhandled⟩
  · -- stream packets are no symbols of a block
    obtain ⟨-, hblocks, -, -, hqueued⟩ := hhandled.effect
    refine Or.inl ⟨hblocks, ?_⟩
    intro c p
    have hnone : (streamPackets hd.channelId symbols).filterMap symbolOf = [] := by
      simp [streamPackets, symbolOf]
    rcases hqueued c p with heq | ⟨-, heq⟩
    · rw [heq]
    · rw [heq, List.filterMap_append, hnone, List.append_nil]
  · obtain ⟨hd, payload, e₁, -, -, -, rfl⟩ := handleStreamAck_ok hack
    exact Or.inl ⟨rfl, fun _ _ => rfl⟩

section handled

variable {around : Surroundings ε} {data : Bytes} {n n' : Node W S ε} {hd : BlockPacketHeader}
  {payload : Bytes} {B B' : Block W} {decoded : Bool} {generated : List Bytes}

/-- The symbols that a block packet has a subscriber of its channel queued. -/
theorem BlockHandled.queuedSymbols
    (h : BlockHandled around data n n' hd payload B decoded B' generated)
    (htype : typeOf data = some .block) {peer : ε} (hsub : n.Subscribed hd.channelId peer) :
    n'.queuedSymbols hd.channelId peer = n.queuedSymbols hd.channelId peer ++
      ((hd.channelId, hd.blockId), hd.packetIndex) :: generated.filterMap symbolOf := by
  obtain ⟨-, -, -, hqueues⟩ := h.effect
  have hqueued := hqueues.queued peer hsub
  unfold Node.queuedSymbols
  rw [hqueued, List.filterMap_append,
    List.filterMap_cons_some (symbolOf_of_header htype h.header_ok)]
  rfl

theorem BlockHandled.queuedSymbols_of_not
    (h : BlockHandled around data n n' hd payload B decoded B' generated) {channelId : UInt32}
    {peer : ε} (hto : channelId ≠ hd.channelId ∨ ¬n.Subscribed channelId peer) :
    n'.queuedSymbols channelId peer = n.queuedSymbols channelId peer := by
  obtain ⟨-, -, -, hqueues⟩ := h.effect
  have hqueued := hqueues.unqueued channelId peer hto
  unfold Node.queuedSymbols
  rw [hqueued]
  rfl

end handled

/-! ## Where queued symbols come from -/

/-- Why a symbol was queued: it arrived, and then it is marked as long as its block is not
decoded, or the block was passed on with it. -/
def Sourced (es : List (Event ε)) (peer : ε) (n : Node W S ε) (key : UInt32 × UInt32)
    (i : UInt32) : Prop :=
  ∃ B, n.blocks key = some B ∧
    (((key, i) ∈ arrivals es ∧
        (B.decoded = [] → Block.marked B.symbolsSeen i.toNat = true)) ∨
      (B.decoded ≠ [] ∧ i.toNat ∈ B.generatedIndices ∧ SawDecoding W S key peer es))

/-- Every symbol that was queued to the peer has a source, and was queued once. -/
structure Explained (es : List (Event ε)) (channelId : UInt32) (peer : ε) (n : Node W S ε) :
    Prop where
  nodup : (n.queuedSymbols channelId peer).Nodup
  sourced : ∀ key i, (key, i) ∈ n.queuedSymbols channelId peer →
    key.1 = channelId ∧ Sourced es peer n key i

omit [LinearOrder ε] in
theorem mem_arrivals_append {es es' : List (Event ε)} {x : (UInt32 × UInt32) × UInt32}
    (h : x ∈ arrivals es) : x ∈ arrivals (es ++ es') := by
  rw [arrivals, List.filterMap_append]
  exact List.mem_append_left _ h

omit [LinearOrder ε] in
/-- What arrives only now has not arrived before. -/
theorem not_mem_arrivals_of_nodup {es : List (Event ε)} {e : Event ε}
    {x : (UInt32 × UInt32) × UInt32} (h : (arrivals (es ++ [e])).Nodup) (he : e.symbol = some x) :
    x ∉ arrivals es := by
  rw [arrivals, List.filterMap_append, List.filterMap_cons_some he, List.nodup_append] at h
  exact fun hmem => h.2.2 x hmem x (by simp) rfl

theorem Sourced.of_blocks_eq {es : List (Event ε)} {e : Event ε} {peer : ε} {n n' : Node W S ε}
    {key : UInt32 × UInt32} {i : UInt32} (h : Sourced es peer n key i)
    (hblocks : n'.blocks key = n.blocks key) : Sourced (es ++ [e]) peer n' key i := by
  obtain ⟨B, hB, hsource⟩ := h
  refine ⟨B, hblocks.trans hB, ?_⟩
  rcases hsource with ⟨harrived, hmarked⟩ | ⟨hdecoded, hgenerated, hsaw⟩
  · exact Or.inl ⟨mem_arrivals_append harrived, hmarked⟩
  · exact Or.inr ⟨hdecoded, hgenerated, hsaw.append [e]⟩

/-- A block packet leaves the symbols that were queued before with a source. -/
theorem Sourced.handled {es : List (Event ε)} {peer : ε} {around : Surroundings ε} {data : Bytes}
    {n n' : Node W S ε} {hd : BlockPacketHeader} {payload : Bytes} {B B' : Block W}
    {decoded : Bool} {generated : List Bytes} {key : UInt32 × UInt32} {i : UInt32} {e : Event ε}
    (h : Sourced es peer n key i)
    (hhandled : BlockHandled around data n n' hd payload B decoded B' generated) :
    Sourced (es ++ [e]) peer n' key i := by
  obtain ⟨-, -, hblocks, -⟩ := hhandled.effect
  by_cases hkey : key = (hd.channelId, hd.blockId)
  · subst hkey
    obtain ⟨B₀, hB₀, hsource⟩ := h
    obtain rfl := hhandled.blockFor.of_some hB₀
    refine ⟨B', hhandled.block_after, ?_⟩
    rcases hhandled.outcome with ⟨hdecoded, rfl, -⟩ | ⟨hundecoded, hmarks, -⟩
    · rcases hsource with ⟨harrived, hmarked⟩ | ⟨_, hgenerated, hsaw⟩
      · exact Or.inl ⟨mem_arrivals_append harrived, hmarked⟩
      · exact Or.inr ⟨hdecoded, hgenerated, hsaw.append [e]⟩
    · -- the marks that were there stay
      rcases hsource with ⟨harrived, hmarked⟩ | ⟨hdecoded, -, -⟩
      · refine Or.inl ⟨mem_arrivals_append harrived, fun _ => ?_⟩
        rw [hmarks, Block.marked_mark, hmarked hundecoded, Bool.or_true]
      · exact absurd hundecoded hdecoded
  · apply h.of_blocks_eq
    rw [hblocks, Function.update_of_ne hkey]

section arriving

variable {es : List (Event ε)} {e : Event ε} {channelId : UInt32} {peer : ε}
  {around : Surroundings ε} {data : Bytes} {n n' : Node W S ε} {hd : BlockPacketHeader}
  {payload : Bytes} {B B' : Block W} {decoded : Bool} {generated : List Bytes}

/-- A symbol that arrives for the first time and is not late was not queued before. -/
theorem Explained.fresh (h : Explained es channelId peer n) {key : UInt32 × UInt32} {i : UInt32}
    (hdistinct : (arrivals (es ++ [e])).Nodup)
    (hlate : ∀ key i, Late n e key i → ¬SawDecoding W S key peer es)
    (harrives : e.symbol = some (key, i)) (hsurvives : n.packetSeq % loseEvery ≠ 0) :
    (key, i) ∉ n.queuedSymbols channelId peer := by
  intro hmem
  obtain ⟨-, B, hB, hsource⟩ := h.sourced key i hmem
  rcases hsource with ⟨harrived, -⟩ | ⟨hdecoded, hgenerated, hsaw⟩
  · exact not_mem_arrivals_of_nodup hdistinct harrives harrived
  · exact hlate key i ⟨harrives, hsurvives, B, hB, hdecoded, hgenerated⟩ hsaw

/-- A block that a packet decodes was not decoded before. -/
theorem BlockHandled.decodes (h : BlockHandled around data n n' hd payload B true B' generated) :
    B.decoded = [] ∧ B'.decoded ≠ [] ∧
      B'.symbolsSeen = Block.mark B.symbolsSeen hd.packetIndex.toNat := by
  rcases h.outcome with ⟨-, -, hfalse⟩ | ⟨hundecoded, hmarks, hreports⟩
  · cases hfalse
  · exact ⟨hundecoded, hreports.mp rfl, hmarks⟩

/-- What is generated is not marked, so it is not the symbol that decoded the block. -/
theorem BlockHandled.generated_ne
    (h : BlockHandled around data n n' hd payload B true B' generated) {j : Nat}
    (hj : j ∈ B'.generatedIndices) : UInt32.ofNat j ≠ hd.packetIndex := by
  obtain ⟨hlt, hunmarked⟩ := Block.of_mem_generatedIndices hj
  intro heq
  rw [h.decodes.2.2, Block.marked_mark, ← heq, UInt32.toNat_ofNat_of_lt' hlt] at hunmarked
  simp at hunmarked

/-- Nor is it one that was queued before. -/
theorem Explained.generated_fresh (hexplained : Explained es channelId peer n)
    (h : BlockHandled around data n n' hd payload B true B' generated) {j : Nat}
    (hj : j ∈ B'.generatedIndices) :
    ((hd.channelId, hd.blockId), UInt32.ofNat j) ∉ n.queuedSymbols channelId peer := by
  obtain ⟨hlt, hunmarked⟩ := Block.of_mem_generatedIndices hj
  obtain ⟨hundecoded, -, hmarks⟩ := h.decodes
  intro hmem
  obtain ⟨-, B₀, hB₀, hsource⟩ := hexplained.sourced _ _ hmem
  obtain rfl := h.blockFor.of_some hB₀
  rcases hsource with ⟨-, hmarked⟩ | ⟨hdecoded, -, -⟩
  · have hstays := hmarked hundecoded
    rw [UInt32.toNat_ofNat_of_lt' hlt] at hstays
    rw [hmarks, Block.marked_mark, hstays, Bool.or_true] at hunmarked
    cases hunmarked
  · exact hdecoded hundecoded

/-- The packet and what it has generated are queued to a subscriber for the first time. -/
theorem Explained.nodup_append (hexplained : Explained es channelId peer n)
    (h : BlockHandled around data n n' hd payload B decoded B' generated) (hcounts : Counts n)
    (hfresh : ((hd.channelId, hd.blockId), hd.packetIndex) ∉ n.queuedSymbols channelId peer) :
    (n.queuedSymbols channelId peer ++
      ((hd.channelId, hd.blockId), hd.packetIndex) :: generated.filterMap symbolOf).Nodup := by
  rw [h.generatedSymbols hcounts, List.nodup_append]
  cases decoded with
  | false =>
      refine ⟨hexplained.nodup, by simp, ?_⟩
      intro x hx y hy hxy
      obtain rfl : y = _ := by simpa using hy
      exact hfresh (hxy ▸ hx)
  | true =>
      rw [if_pos rfl]
      refine ⟨hexplained.nodup, List.nodup_cons.mpr ⟨?_, ?_⟩, ?_⟩
      · intro hmem
        obtain ⟨j, hj, heq⟩ := List.mem_map.mp hmem
        exact h.generated_ne hj (congrArg Prod.snd heq)
      · refine B'.nodup_generatedIndices.map_on ?_
        intro j hj k hk heq
        have hindex := congrArg (fun x => x.2.toNat) heq
        have hjlt := (Block.of_mem_generatedIndices hj).1
        have hklt := (Block.of_mem_generatedIndices hk).1
        simpa [UInt32.toNat_ofNat_of_lt' hjlt, UInt32.toNat_ofNat_of_lt' hklt] using hindex
      · intro x hx y hy hxy
        subst hxy
        rcases List.mem_cons.mp hy with rfl | hy
        · exact hfresh hx
        · obtain ⟨j, hj, rfl⟩ := List.mem_map.mp hy
          exact hexplained.generated_fresh h hj hx

/-- The packet and what it has generated have a source. -/
theorem BlockHandled.sourced (hrun : Run Step {} es n) (hstep : Step n e n')
    (h : BlockHandled around data n n' hd payload B decoded B' generated) (hcounts : Counts n)
    (harrives : e.symbol = some ((hd.channelId, hd.blockId), hd.packetIndex))
    (hsub : n.Subscribed hd.channelId peer) :
    ∀ key i, (key, i) ∈ ((hd.channelId, hd.blockId), hd.packetIndex) ::
      generated.filterMap symbolOf →
        key = (hd.channelId, hd.blockId) ∧ Sourced (es ++ [e]) peer n' key i := by
  intro key i hmem
  rcases List.mem_cons.mp hmem with heq | hmem
  · obtain ⟨rfl, rfl⟩ := Prod.mk.inj heq
    refine ⟨rfl, B', h.block_after, Or.inl ⟨?_, ?_⟩⟩
    · rw [arrivals, List.filterMap_append, List.filterMap_cons_some harrives]
      simp
    · intro hundecoded'
      rcases h.outcome with ⟨hdecoded, rfl, -⟩ | ⟨-, hmarks, -⟩
      · exact absurd hundecoded' hdecoded
      · rw [hmarks, Block.marked_mark]
        simp
  · rw [h.generatedSymbols hcounts] at hmem
    cases decoded with
    | false => cases hmem
    | true =>
        obtain ⟨j, hj, heq⟩ := List.mem_map.mp hmem
        obtain ⟨rfl, rfl⟩ := Prod.mk.inj heq
        obtain ⟨hundecoded, hdecoded, -⟩ := h.decodes
        refine ⟨rfl, B', h.block_after,
          Or.inr ⟨hdecoded, ?_, es, e, [], rfl, n, n', hrun, hstep, ?_⟩⟩
        · rw [UInt32.toNat_ofNat_of_lt' (Block.of_mem_generatedIndices hj).1]
          exact hj
        · refine ⟨?_, ⟨B', h.block_after, hdecoded⟩, hsub⟩
          intro B₀ hB₀
          obtain rfl := h.blockFor.of_some hB₀
          exact hundecoded

theorem Explained.step (hrun : Run Step {} es n) (hcounts : Counts n)
    (h : Explained es channelId peer n) (hstep : Step n e n')
    (hdistinct : (arrivals (es ++ [e])).Nodup)
    (hlate : ∀ key i, Late n e key i → ¬SawDecoding W S key peer es) :
    Explained (es ++ [e]) channelId peer n' := by
  rcases step_symbols hstep with ⟨hblocks, hqueued⟩ | ⟨around, data, sender, hd, payload, B, decoded,
    B', generated, rfl, htype, hhandled⟩
  · refine ⟨by rw [hqueued]; exact h.nodup, ?_⟩
    intro key i hmem
    rw [hqueued] at hmem
    obtain ⟨hchannel, hsource⟩ := h.sourced key i hmem
    exact ⟨hchannel, hsource.of_blocks_eq (by rw [hblocks])⟩
  have harrives : (Event.datagram around data sender).symbol =
      some ((hd.channelId, hd.blockId), hd.packetIndex) :=
    symbolOf_of_header htype hhandled.header_ok
  have hold : ∀ key i, (key, i) ∈ n.queuedSymbols channelId peer →
      key.1 = channelId ∧ Sourced (es ++ [.datagram around data sender]) peer n' key i :=
    fun key i hmem => ⟨(h.sourced key i hmem).1, (h.sourced key i hmem).2.handled hhandled⟩
  by_cases hto : channelId = hd.channelId ∧ n.Subscribed channelId peer
  · obtain ⟨rfl, hsub⟩ := hto
    have hqueued := hhandled.queuedSymbols htype hsub
    have hfresh := h.fresh hdistinct hlate harrives hhandled.survives
    refine ⟨by rw [hqueued]; exact h.nodup_append hhandled hcounts hfresh, ?_⟩
    intro key i hmem
    rw [hqueued] at hmem
    rcases List.mem_append.mp hmem with hmem | hmem
    · exact hold key i hmem
    · obtain ⟨rfl, hsource⟩ := hhandled.sourced hrun hstep hcounts harrives hsub key i hmem
      exact ⟨rfl, hsource⟩
  · have hsame := hhandled.queuedSymbols_of_not (not_and_or.mp hto)
    refine ⟨by rw [hsame]; exact h.nodup, ?_⟩
    rw [hsame]
    exact hold

end arriving

theorem counts_of_run {n : Node W S ε} {es : List (Event ε)} (h : Run Step {} es n) : Counts n :=
  Run.invariant (fun _ _ _ hs hstep => hs.step hstep) h counts_init

theorem explained_of_run {n : Node W S ε} {es : List (Event ε)} (h : Run Step {} es n)
    (hdistinct : (arrivals es).Nodup) (hlate : NeverLate W S es) (channelId : UInt32) (peer : ε) :
    Explained es channelId peer n := by
  induction h with
  | nil => exact ⟨List.nodup_nil, fun key i hmem => absurd hmem List.not_mem_nil⟩
  | @snoc t u es e hrun hstep ih =>
      have hbefore : (arrivals es).Nodup := by
        rw [arrivals, List.filterMap_append] at hdistinct
        exact hdistinct.of_append_left
      refine (ih hbefore hlate.of_append).step hrun (counts_of_run hrun) hstep hdistinct ?_
      intro key i harrives
      exact hlate es e [] (by simp) _ hrun key i harrives peer

/-! ## What a late symbol does -/

/-- A block packet that changes the block which a step decodes is the one that decodes it. -/
theorem DecodesFor.handled {key : UInt32 × UInt32} {peer : ε} {n n' : Node W S ε} {e : Event ε}
    (h : DecodesFor key peer n n') (hstep : Step n e n') :
    ∃ around data hd payload B B' generated, typeOf data = some .block ∧
      BlockHandled around data n n' hd payload B true B' generated ∧
      key = (hd.channelId, hd.blockId) ∧ n'.blocks key = some B' := by
  obtain ⟨B₁, hB₁, hdecoded⟩ := h.decoded
  rcases step_symbols hstep with ⟨hblocks, -⟩ | ⟨around, data, sender, hd, payload, B, decoded,
    B', generated, rfl, htype, hhandled⟩
  · rw [hblocks] at hB₁
    exact absurd (h.undecoded B₁ hB₁) hdecoded
  obtain ⟨-, -, hblocks, -⟩ := hhandled.effect
  by_cases hkey : key = (hd.channelId, hd.blockId)
  · subst hkey
    have hafter := hhandled.block_after
    obtain rfl : B' = B₁ := Option.some.inj (hafter.symm.trans hB₁)
    have hundecoded : B.decoded = [] := by
      rcases hhandled.blockFor with hB | ⟨-, hmade⟩
      · exact h.undecoded B hB
      · exact (Block.ofSize_fresh hmade).1
    rcases hhandled.outcome with ⟨hnot, -, -⟩ | ⟨-, -, hreports⟩
    · exact absurd hundecoded hnot
    · obtain rfl := hreports.mpr hdecoded
      exact ⟨around, data, hd, payload, B, B', generated, htype, hhandled, rfl, hafter⟩
  · rw [hblocks, Function.update_of_ne hkey] at hB₁
    exact absurd (h.undecoded B₁ hB₁) hdecoded

/-- A peer that saw a block decoded is still there, and was queued what was generated. -/
theorem SawDecoding.queued {key : UInt32 × UInt32} {peer : ε} {es : List (Event ε)}
    {n : Node W S ε} (h : SawDecoding W S key peer es) (hrun : Run Step {} es n) :
    n.Subscribed key.1 peer ∧ ∀ B, n.blocks key = some B → ∀ i : UInt32,
      i.toNat ∈ B.generatedIndices → (key, i) ∈ n.queuedSymbols key.1 peer := by
  obtain ⟨es₁, e, es₂, rfl, m, m', hrun₁, hstep, hdecodes⟩ := h
  obtain ⟨m₁, hrun₁', hrest⟩ := Run.of_append hrun
  obtain rfl := Run.deterministic Step.deterministic hrun₁ hrun₁'
  obtain ⟨m₂, hstep', hrun₂⟩ := Run.cons_iff.mp hrest
  obtain rfl := hstep.deterministic hstep'
  obtain ⟨around, data, hd, payload, B, B', generated, htype, hhandled, rfl, hafter⟩ :=
    hdecodes.handled hstep
  have hsub := hdecodes.subscribed
  refine ⟨run_subscribed hrun₂ ((step_grows hstep).subscribed _ _ hsub), ?_⟩
  intro B₁ hB₁ i hi
  have hstays := run_blocks_of_decoded hrun₂ hafter hhandled.decodes.2.1
  obtain rfl : B' = B₁ := Option.some.inj (hstays.symm.trans hB₁)
  apply (run_queuedSymbols hrun₂ _ _).subset
  rw [hhandled.queuedSymbols htype hsub, hhandled.generatedSymbols (counts_of_run hrun₁), if_pos rfl]
  refine List.mem_append_right _ (List.mem_cons_of_mem _ (List.mem_map.mpr ⟨i.toNat, hi, ?_⟩))
  rw [UInt32.ofNat_toNat]

/-- A symbol that is not lost is handled. -/
theorem handled_of_arrival {key : UInt32 × UInt32} {i : UInt32} {n n' : Node W S ε} {e : Event ε}
    (hstep : Step n e n') (harrives : e.symbol = some (key, i))
    (hsurvives : n.packetSeq % loseEvery ≠ 0) :
    ∃ around data hd payload B decoded B' generated, typeOf data = some .block ∧
      BlockHandled around data n n' hd payload B decoded B' generated ∧
      key = (hd.channelId, hd.blockId) ∧ i = hd.packetIndex := by
  have hresult := hstep.result
  cases e with
  | timerExpires => cases harrives
  | waitAborted => cases harrives
  | datagram around data sender =>
      have harrives : symbolOf data = some (key, i) := harrives
      have htype : typeOf data = some .block := by
        by_contra hne
        rw [symbolOf_of_ne hne] at harrives
        cases harrives
      obtain ⟨t, htype', hcall⟩ := handlerOf_ok hresult
      obtain rfl : t = .block := Option.some.inj (htype'.symm.trans htype)
      rcases handleBlock_ok hcall with ⟨-, -, hlost⟩ | ⟨hd, payload, B, decoded, B', generated,
        hhandled⟩
      · exact absurd hlost hsurvives
      · rw [symbolOf_of_header htype hhandled.header_ok] at harrives
        obtain ⟨rfl, rfl⟩ := Prod.mk.inj (Option.some.inj harrives)
        exact ⟨around, data, hd, payload, B, decoded, B', generated, htype, hhandled, rfl, rfl⟩

/-- A late symbol is queued once more to a peer that saw its block decoded. -/
theorem Late.not_nodup {key : UInt32 × UInt32} {i : UInt32} {peer : ε} {es : List (Event ε)}
    {n n' : Node W S ε} {e : Event ε} (h : Late n e key i) (hrun : Run Step {} es n)
    (hstep : Step n e n') (hsaw : SawDecoding W S key peer es) :
    ¬(n'.queuedSymbols key.1 peer).Nodup := by
  obtain ⟨hsub, hqueued⟩ := hsaw.queued hrun
  obtain ⟨B, hB, -, hi⟩ := h.generated
  have hbefore := hqueued B hB i hi
  obtain ⟨around, data, hd, payload, B₀, decoded, B', generated, htype, hhandled, rfl, rfl⟩ :=
    handled_of_arrival hstep h.arrives h.survives
  rw [hhandled.queuedSymbols htype hsub, List.nodup_append]
  exact fun hnodup => hnodup.2.2 _ hbefore _ List.mem_cons_self rfl

/-- **Each symbol once.** In every run in which the symbols of a block arrive with distinct
indices, no symbol is queued to a peer twice exactly if none is late while a peer is there
that was there when its block was decoded. -/
theorem sends_once_iff {es : List (Event ε)} {n : Node W S ε} (hrun : Run Step {} es n)
    (hdistinct : (arrivals es).Nodup) : n.SendsOnce ↔ NeverLate W S es := by
  constructor
  · intro honce es₁ e es₂ hes m hrun₁ key i hlate peer hsaw
    subst hes
    obtain ⟨m₁, hrun₁', hrest⟩ := Run.of_append hrun
    obtain rfl := Run.deterministic Step.deterministic hrun₁ hrun₁'
    obtain ⟨m', hstep, hrun₂⟩ := Run.cons_iff.mp hrest
    apply hlate.not_nodup hrun₁ hstep hsaw
    exact (honce key.1 peer).sublist (run_queuedSymbols hrun₂ key.1 peer)
  · intro hlate channelId peer
    exact (explained_of_run hrun hdistinct hlate channelId peer).nodup

/-! ### A symbol that is on its way when its block decodes

Peer 7 subscribes, symbol 0 is lost, and symbols 1 and 2 decode the block. Peer 7 is then
queued symbols 0, 3 and 4, and when symbol 3 arrives after all it is queued once more. -/

/-- Symbol `index` of the block of two symbols, as its encoder writes it. -/
def replicaPacket (index : Nat) : Bytes :=
  Packet.makeBlock (Chunks.chunk maxBlockPacketSize Published.twoSymbols.message (index % 2)) 1 1
    1377 (UInt32.ofNat index)

def lateEvents : List (Event Nat) :=
  [.datagram Published.someSurroundings (Packet.makeControl [] actionSubscribe 1 2000) 7,
    .datagram Published.someSurroundings (Published.twoSymbolPacket 0) 9,
    .datagram Published.someSurroundings (replicaPacket 1) 9,
    .datagram Published.someSurroundings (replicaPacket 2) 9,
    .datagram Published.someSurroundings (replicaPacket 3) 9]

def lateNode : Node replicating echoing Nat :=
  Published.nodeAfter (Published.nodeAfter (Published.nodeAfter Published.subscribedNode
    (replicaPacket 1) 9) (replicaPacket 2) 9) (replicaPacket 3) 9

theorem run_lateEvents : Run Step {} lateEvents lateNode :=
  ((((Run.single (Published.step_nodeAfter (by decide +kernel))).snoc
    (Published.step_nodeAfter (by decide +kernel))).snoc
    (Published.step_nodeAfter (by decide +kernel))).snoc
    (Published.step_nodeAfter (by decide +kernel))).snoc
    (Published.step_nodeAfter (by decide +kernel))

theorem nodup_arrivals_lateEvents : (arrivals lateEvents).Nodup := by decide +kernel

theorem not_sendsOnce_lateNode : ¬lateNode.SendsOnce :=
  fun h => absurd (h 1 7) (by decide +kernel)

theorem sends_once_iff_late : ¬NeverLate replicating echoing lateEvents :=
  fun h => not_sendsOnce_lateNode
    ((sends_once_iff run_lateEvents nodup_arrivals_lateEvents).mpr h)

/-- **A symbol is sent twice.** All symbols arrive with distinct indices, and peer 7 is queued
symbol 3 twice. -/
theorem late_symbol_is_sent_twice : ¬∀ (es : List (Event Nat)) (n : Node replicating echoing Nat),
    Run Step {} es n → (arrivals es).Nodup → n.SendsOnce :=
  fun h => not_sendsOnce_lateNode (h lateEvents lateNode run_lateEvents nodup_arrivals_lateEvents)

end Node

end FecRelay
