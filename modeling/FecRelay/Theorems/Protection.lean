import FecRelay.Codec.Windowing
import FecRelay.Draining

/-!
# One encoder for all subscribers

A node has one encoder for a channel, and an ack drops chunks from its window whichever
subscriber it is from. So what a subscriber has not acknowledged stays covered by recovery
symbols exactly as long as no ack of another one is ahead of it.
-/

namespace FecRelay

open FecRelay.Base

/-! ## What the recovery symbols cover -/

namespace EncoderPacketWindow

theorem getUnacknowledgedCount_trim (w : EncoderPacketWindow) :
    w.trim.getUnacknowledgedCount = w.getUnacknowledgedCount := by
  unfold trim
  split
  · obtain ⟨-, -, horiginals, hfirst⟩ := w.removeElements_fields
    have hle := Nat.div_mul_le_self w.firstUnremovedElement subwindowSize
    unfold getUnacknowledgedCount count
    rw [horiginals, hfirst, List.length_drop]
    omega
  · rfl

/-- A recovery packet says that it covers what is unacknowledged. -/
theorem ldpcCount_encode (w : EncoderPacketWindow) :
    w.encode.1.metadata.ldpcCount = w.getUnacknowledgedCount := by
  rw [← w.getUnacknowledgedCount_trim]
  show w.trim.generate.1.metadata.ldpcCount = _
  unfold generate
  dsimp only
  split
  · next hone => simp [generateSinglePacket, hone]
  split
  · split <;> simp [generateCauchyPacket, generateSumPacket, resetSums, getUnacknowledgedCount,
      count]
  · split <;> simp [generateCauchyPacket, generateSumPacket]

end EncoderPacketWindow

namespace ContinuousStreamEncoder

variable {S : Siamese} {view : S.Encoder → SiameseEncoder} {ratio : Rat}
  {e e' : ContinuousStreamEncoder S} {a : Nat}

/-- The first chunk that the recovery symbols from now on cover, by its place in the stream. -/
def firstCovered (view : S.Encoder → SiameseEncoder) (e : ContinuousStreamEncoder S) : Nat :=
  e.encoder.added.length - (e.window view).getUnacknowledgedCount

/-- The recovery symbols from now on cover chunk `k`. -/
def Covers (view : S.Encoder → SiameseEncoder) (e : ContinuousStreamEncoder S) (k : Nat) : Prop :=
  e.firstCovered view ≤ k ∧ k < e.encoder.added.length

/-- The latest ack said that the first `a` chunks arrived, and the numbers that are compared
for `ALL_ACKED` are those of the chunks acknowledged and added. -/
structure Tracks (view : S.Encoder → SiameseEncoder) (a : Nat) (e : ContinuousStreamEncoder S) :
    Prop where
  holds : (view e.encoder.encoder).Holds e.encoder.added.length a
  expects : e.receiverExpects = a % siamesePacketNumCount
  next : e.nextIndex = e.encoder.added.length % siamesePacketNumCount

theorem tracks_init (hlaw : S.Windowed view) :
    ({} : ContinuousStreamEncoder S).Tracks view 0 := by
  refine ⟨?_, rfl, rfl⟩
  show (view S.encoderCreate).Holds 0 0
  rw [hlaw.create]
  exact SiameseEncoder.holds_init

theorem Tracks.firstCovered (h : e.Tracks view a) : e.firstCovered view = a := by
  have hunacked := h.holds.window.unacknowledged
  have hle := h.holds.window.acked_le
  show e.encoder.added.length - (view e.encoder.encoder).window.getUnacknowledgedCount = a
  omega

theorem Tracks.le (h : e.Tracks view a) : a ≤ e.encoder.added.length := h.holds.window.acked_le

/-- Chunks that wait are none of the codec's business. -/
theorem Tracks.withPending (h : e.Tracks view a) (pending : List Bytes) :
    ({ e with pending := pending } : ContinuousStreamEncoder S).Tracks view a :=
  ⟨h.holds, h.expects, h.next⟩

theorem Tracks.getSymbol (hlaw : S.Windowed view) (h : e.Tracks view a) {symbol : Symbol}
    (hcall : ContinuousStreamEncoder.getSymbol ratio e = .ok symbol e') : e'.Tracks view a := by
  have hholds := holds_getSymbol hlaw h.holds hcall
  rcases getSymbol_ok_iff.mp hcall with ⟨-, x, hx, rfl⟩ | ⟨-, rest, x, -, hx, rfl⟩
  · obtain ⟨-, -, rfl⟩ := StreamFecEncoder.generateFecSymbol_ok_iff.mp hx
    exact ⟨hholds, h.expects, h.next⟩
  · obtain ⟨hsuccess, hnum, rfl⟩ := StreamFecEncoder.addChunk_ok_iff.mp hx
    refine ⟨hholds, h.expects, ?_⟩
    show siamesePacketNumInc symbol.2 = (e.encoder.added ++ [symbol.1]).length % _
    rw [hnum, (hlaw.of_add hsuccess).1, h.holds.window.nextColumn, siamesePacketNumInc,
      Nat.mod_add_mod, List.length_append, List.length_singleton]

theorem Tracks.drainSymbols (hlaw : S.Windowed view) (h : e.Tracks view a) {rounds : Nat}
    {symbols : List Symbol}
    (hcall : ContinuousStreamEncoder.drainSymbols ratio rounds e = .ok symbols e') :
    e'.Tracks view a := by
  refine Run.invariant_of_events (I := fun t => t.Tracks view a)
    (C := fun x => ∃ symbol, x = Event.getSymbol symbol) ?_ (run_of_drainSymbols _ hcall).1 ?_ h
  · rintro t x t' ht ⟨symbol, rfl⟩ hstep
    cases hstep with
    | getSymbol _ _ hget => exact ht.getSymbol hlaw hget
  · intro x hx
    obtain ⟨symbol, -, rfl⟩ := List.mem_map.mp hx
    exact ⟨symbol, rfl⟩

theorem Tracks.processAck (hlaw : S.Windowed view) (h : e.Tracks view a) {message : Bytes}
    {expects : Nat} (hack : IsAck message expects) (hsent : expects ≤ e.encoder.added.length)
    (hrecent : a < expects + siamesePacketNumCount / 2)
    (hcall : ContinuousStreamEncoder.processAck message e = .ok () e') :
    e'.Tracks view (max a expects) := by
  obtain ⟨hholds, hexpects⟩ := holds_processAck hlaw h.holds hack hsent hrecent hcall
  obtain ⟨-, rfl⟩ := processAck_ok_iff.mp hcall
  exact ⟨hholds, hexpects, h.next⟩

/-- `ALL_ACKED` says that the latest ack was for everything that was added. -/
theorem Tracks.allAcked_iff (h : e.Tracks view a) :
    e.reliabilityLevel ratio = .allAcked ↔ a = e.encoder.added.length := by
  have hsame : e.reliabilityLevel ratio = .allAcked ↔ e.receiverExpects = e.nextIndex := by
    unfold reliabilityLevel
    split
    · next heq => simp [heq]
    · next hne => split <;> simp [hne]
  have hunacked := h.holds.window.unacknowledged
  have hcount := h.holds.window.count_le
  have hle := h.le
  rw [hsame, h.expects, h.next]
  unfold EncoderPacketWindow.getUnacknowledgedCount at hunacked
  unfold siameseMaxPackets at hcount
  unfold siamesePacketNumCount
  omega

/-! ### The symbols of a drain -/

/-- The chunks among some symbols. -/
def chunksOf (symbols : List Symbol) : List Symbol :=
  symbols.filter fun symbol => symbol.2 ≠ packetIndexFec

/-- Chunks under the numbers of their places, from place `n`. -/
def numbered (n : Nat) (chunks : List Bytes) : List Symbol :=
  (chunks.zipIdx n).map fun x => (x.1, x.2 % siamesePacketNumCount)

/-- A drain gets the chunks that are pending, under the numbers of their places. -/
theorem chunksOf_drainSymbols (hlaw : S.Numbers) : ∀ (rounds : Nat)
    {e e' : ContinuousStreamEncoder S} {symbols : List Symbol}, e.encoder.Recorded →
    drainSymbols ratio rounds e = .ok symbols e' →
    chunksOf symbols = numbered e.encoder.added.length e.pending := by
  intro rounds
  induction rounds with
  | zero => intro e e' symbols _ h; cases h
  | succ rounds ih =>
      intro e e' symbols hrecorded h
      rcases drainSymbols_ok_iff.mp h with ⟨hdata, rfl, rfl⟩ |
        ⟨-, symbol, e₁, rest, hcall, hrest, rfl⟩
      · unfold hasData at hdata
        have hpending : e'.pending = [] := by simpa using (Bool.or_eq_false_iff.mp hdata).1
        rw [hpending]
        rfl
      · rcases getSymbol_ok_iff.mp hcall with ⟨-, x, hx, rfl⟩ | ⟨-, more, x, hpending, hx, rfl⟩
        · -- a recovery symbol is no chunk
          obtain ⟨hsuccess, rfl, rfl⟩ := StreamFecEncoder.generateFecSymbol_ok_iff.mp hx
          have hchunks := ih (by exact .encode hrecorded hsuccess) hrest
          unfold chunksOf at hchunks ⊢
          simp only [ne_eq, not_true_eq_false, decide_false, Bool.false_eq_true,
            not_false_eq_true, List.filter_cons_of_neg]
          exact hchunks
        · obtain ⟨hsuccess, hnum, rfl⟩ := StreamFecEncoder.addChunk_ok_iff.mp hx
          have hindex : symbol.2 = e.encoder.added.length % siamesePacketNumCount := by
            rw [hnum, hlaw _ _ _ _ hrecorded hsuccess]
          have hchunk : symbol.2 ≠ packetIndexFec := by
            have := Nat.mod_lt e.encoder.added.length (show 0 < siamesePacketNumCount by decide)
            unfold siamesePacketNumCount at *
            unfold packetIndexFec
            omega
          have hchunks : chunksOf rest =
              numbered (e.encoder.added ++ [symbol.1]).length e.pending.tail :=
            ih (by exact .add hrecorded hsuccess) hrest
          have hmore : e.pending.tail = more := by rw [hpending]; rfl
          rw [hmore, List.length_append, List.length_singleton] at hchunks
          unfold chunksOf at hchunks ⊢
          rw [List.filter_cons_of_pos (by simpa using hchunk), hchunks, hpending]
          unfold numbered
          rw [List.zipIdx_cons, List.map_cons, ← hindex]

theorem mem_numbered {n : Nat} {chunks : List Bytes} {symbol : Symbol} :
    symbol ∈ numbered n chunks ↔
      ∃ k, n ≤ k ∧ chunks[k - n]? = some symbol.1 ∧ symbol.2 = k % siamesePacketNumCount := by
  unfold numbered
  rw [List.mem_map]
  constructor
  · rintro ⟨⟨chunk, k⟩, hmem, rfl⟩
    obtain ⟨hle, hget⟩ := List.mk_mem_zipIdx_iff_le_and_getElem?_sub.mp hmem
    exact ⟨k, hle, hget, rfl⟩
  · rintro ⟨k, hle, hget, hindex⟩
    refine ⟨(symbol.1, k), List.mk_mem_zipIdx_iff_le_and_getElem?_sub.mpr ⟨hle, hget⟩, ?_⟩
    rw [← hindex]

end ContinuousStreamEncoder

/-! ## Subscribers -/

/-- A node, and what its subscribers of one channel were queued and have acknowledged: the
chunks in their packets, and the first chunk that is not acknowledged, by their places in
the stream. -/
structure Audience (W : Wirehair) (S : Siamese) (ε : Type) [LinearOrder ε] where
  node : Node W S ε := {}
  queued : ε → List Nat := fun _ => []
  acked : ε → Nat := fun _ => 0

namespace Audience

variable {W : Wirehair} {S : Siamese} {ε : Type} [LinearOrder ε]
  {view : S.Encoder → SiameseEncoder} {channelId : UInt32} {w w' : Audience W S ε}

/-- The encoder of the channel. -/
def encoder (channelId : UInt32) (w : Audience W S ε) : ContinuousStreamEncoder S :=
  (w.node.stream channelId).encoder

/-- The node has become `n`: the chunks that its encoder has added since are queued to the
subscribers. -/
def withNode (channelId : UInt32) (w : Audience W S ε) (n : Node W S ε) : Audience W S ε where
  node := n
  queued peer :=
    if (w.node.receiver channelId peer).isSome then
      let before := (w.encoder channelId).encoder.added.length
      w.queued peer ++
        List.range' before ((n.stream channelId).encoder.encoder.added.length - before)
    else w.queued peer
  acked := w.acked

/-- A peer says in an ack of the channel that the first `expects` chunks arrived, or
something else happens to the node. -/
inductive Event (ε : Type) where
  | ack (around : Surroundings ε) (data : Bytes) (peer : ε) (expects : Nat)
  | other (e : Node.Event ε)

/-- The event is an ack of the channel. -/
def IsAckOf (channelId : UInt32) (e : Node.Event ε) : Prop :=
  ∃ around data peer h, e = .datagram around data peer ∧ Node.typeOf data = some .streamAck ∧
    Packet.header StreamAckPacketHeader data = .ok h ∧ h.channelId = channelId

/-- One event happens to the node, and nothing throws. An ack is for chunks that were sent,
and not so old that its number came around again. -/
inductive Step (view : S.Encoder → SiameseEncoder) (channelId : UInt32) :
    Audience W S ε → Event ε → Audience W S ε → Prop
  | ack {w : Audience W S ε} {around : Surroundings ε} {data payload : Bytes} {peer : ε}
      {expects : Nat} {h : StreamAckPacketHeader} {n : Node W S ε} :
      Node.typeOf data = some .streamAck → Packet.header StreamAckPacketHeader data = .ok h →
      h.channelId = channelId → Packet.payload StreamAckPacketHeader data = .ok payload →
      ContinuousStreamEncoder.IsAck payload expects →
      expects ≤ (w.encoder channelId).encoder.added.length →
      (w.encoder channelId).firstCovered view < expects + siamesePacketNumCount / 2 →
      Node.Step w.node (.datagram around data peer) n →
      Step view channelId w (.ack around data peer expects)
        { w with node := n, acked := Function.update w.acked peer (max (w.acked peer) expects) }
  | other {w : Audience W S ε} {e : Node.Event ε} {n : Node W S ε} :
      Node.Step w.node e n → ¬IsAckOf channelId e →
      Step view channelId w (.other e) (w.withNode channelId n)

/-- What was queued to a subscriber and is not acknowledged by it is covered, and the level
is `ALL_ACKED` only if every subscriber has acknowledged what was queued to it. -/
structure ProtectsAll (view : S.Encoder → SiameseEncoder) (channelId : UInt32)
    (w : Audience W S ε) : Prop where
  covers : ∀ peer, w.node.Subscribed channelId peer → ∀ k ∈ w.queued peer, w.acked peer ≤ k →
    (w.encoder channelId).Covers view k
  level : (w.encoder channelId).reliabilityLevel fecRatio = .allAcked →
    ∀ peer, w.node.Subscribed channelId peer → ∀ k ∈ w.queued peer, k < w.acked peer

/-- An ack is not ahead of what the other subscribers have acknowledged of what was queued
to them. -/
def SparesOthers (channelId : UInt32) (w : Audience W S ε) : Event ε → Prop
  | .ack _ _ peer expects => ∀ other, other ≠ peer → w.node.Subscribed channelId other →
      ∀ k ∈ w.queued other, k < expects → k < w.acked other
  | .other _ => True

/-- The encoder tracks the latest ack, and what was queued was added. -/
structure Sound (view : S.Encoder → SiameseEncoder) (channelId : UInt32) (w : Audience W S ε) :
    Prop where
  tracks : ∃ a, (w.encoder channelId).Tracks view a
  recorded : (w.encoder channelId).encoder.Recorded
  queued : ∀ peer, ∀ k ∈ w.queued peer,
    w.node.Subscribed channelId peer ∧ k < (w.encoder channelId).encoder.added.length

theorem sound_init (hlaw : S.Windowed view) : ({} : Audience W S ε).Sound view channelId where
  tracks := ⟨0, ContinuousStreamEncoder.tracks_init hlaw⟩
  recorded := .create
  queued _ _ hk := absurd hk List.not_mem_nil

/-- All are protected if what the latest ack was for was acknowledged by everyone. -/
theorem protectsAll_iff {a : Nat} (htracks : (w.encoder channelId).Tracks view a)
    (hsound : w.Sound view channelId) : w.ProtectsAll view channelId ↔
      ∀ peer, w.node.Subscribed channelId peer → ∀ k ∈ w.queued peer, k < a → k < w.acked peer := by
  constructor
  · intro h peer hsub k hk hlt
    by_contra hnot
    have hcovers := (h.covers peer hsub k hk (not_lt.mp hnot)).1
    rw [htracks.firstCovered] at hcovers
    omega
  · intro h
    refine ⟨fun peer hsub k hk hle => ⟨?_, (hsound.queued peer k hk).2⟩, ?_⟩
    · rw [htracks.firstCovered]
      by_contra hnot
      have := h peer hsub k hk (not_le.mp hnot)
      omega
    · intro hlevel peer hsub k hk
      have hall := htracks.allAcked_iff.mp hlevel
      exact h peer hsub k hk (hall ▸ (hsound.queued peer k hk).2)

/-! ### What a step does to the encoder -/

/-- What is no ack of the channel leaves its stream alone, or is a stream packet of it. -/
theorem step_of_other {n n' : Node W S ε} {e : Node.Event ε} (h : Node.Step n e n')
    (hother : ¬IsAckOf channelId e) : Node.LeavesStream channelId n n' ∨
      ∃ around data hd payload d₁ d₂ s₁ symbols e₁ acks, hd.channelId = channelId ∧
        Node.StreamHandled around data n n' hd payload d₁ d₂ s₁ symbols e₁ acks := by
  rcases Node.step_cases h with hquiet | ⟨around, data, peer, rfl, hcases⟩
  · exact Or.inl (hquiet.leavesStream channelId)
  rcases hcases with ⟨htype, hd, payload, block, decoded, block', generated, hhandled⟩ |
    ⟨htype, hd, payload, d₁, d₂, s₁, symbols, e₁, acks, hhandled⟩ | ⟨htype, hack⟩
  · exact Or.inl (hhandled.leavesStream htype channelId)
  · by_cases hchannel : hd.channelId = channelId
    · exact Or.inr ⟨around, data, hd, payload, d₁, d₂, s₁, symbols, e₁, acks, hchannel, hhandled⟩
    · exact Or.inl (hhandled.leavesStream hchannel)
  · obtain ⟨hd, payload, x, hheader, _, _, rfl⟩ := Node.handleStreamAck_ok hack
    have hchannel : channelId ≠ hd.channelId :=
      fun heq => hother ⟨around, data, peer, hd, rfl, htype, hheader, heq.symm⟩
    exact Or.inl ⟨Node.stream_of_update_of_ne rfl hchannel, fun _ _ hdata _ => hdata⟩

/-- Such an event acknowledges nothing. -/
theorem Sound.encoder_of_other (hlaw : S.Windowed view) (hsound : w.Sound view channelId)
    {e : Node.Event ε} {n : Node W S ε} (h : Node.Step w.node e n)
    (hother : ¬IsAckOf channelId e) {a : Nat} (htracks : (w.encoder channelId).Tracks view a) :
    (n.stream channelId).encoder.Tracks view a ∧ (n.stream channelId).encoder.encoder.Recorded ∧
      (w.encoder channelId).encoder.added.length ≤
        (n.stream channelId).encoder.encoder.added.length := by
  rcases step_of_other h hother with hleaves |
    ⟨around, data, hd, payload, d₁, d₂, s₁, symbols, e₁, acks, rfl, hhandled⟩
  · rw [hleaves.stream_eq]
    exact ⟨htracks, hsound.recorded, le_refl _⟩
  · rw [Node.stream_of_update_self hhandled.effect.2.2.1]
    obtain ⟨hsame, -⟩ := Node.relayChunks_encoder hhandled.relayed
    have hstart : s₁.encoder.Tracks view a := hsame ▸ htracks.withPending s₁.encoder.pending
    have hrecorded : s₁.encoder.encoder.Recorded := hsame ▸ hsound.recorded
    have hcount : s₁.encoder.encoder.added.length =
        (w.encoder hd.channelId).encoder.added.length := by
      rw [hsame]
      rfl
    obtain ⟨hrun, -⟩ := ContinuousStreamEncoder.run_of_drainSymbols _ hhandled.drained
    obtain ⟨-, hadded, -⟩ :=
      ContinuousStreamEncoder.holds_drainSymbols hlaw hstart.holds hhandled.drained
    refine ⟨hstart.drainSymbols hlaw hhandled.drained, ?_, ?_⟩
    · exact Run.invariant (I := fun e : ContinuousStreamEncoder S => e.encoder.Recorded)
        (fun _ _ _ he hstep => hstep.recorded he) hrun hrecorded
    · show _ ≤ e₁.encoder.added.length
      rw [hadded, List.length_append, hcount]
      exact Nat.le_add_right _ _

/-- What an ack of the channel does. -/
theorem encoder_of_ack {data payload : Bytes} {around : Surroundings ε} {peer : ε}
    {h : StreamAckPacketHeader} {n n' : Node W S ε} (htype : Node.typeOf data = some .streamAck)
    (hheader : Packet.header StreamAckPacketHeader data = .ok h)
    (hpayload : Packet.payload StreamAckPacketHeader data = .ok payload)
    (hstep : Node.Step n (.datagram around data peer) n') :
    ∃ x, ContinuousStreamEncoder.processAck payload (n.stream h.channelId).encoder = .ok () x ∧
      (n'.stream h.channelId).encoder = x ∧ n'.subscriptions = n.subscriptions := by
  obtain ⟨t, htype', hcall⟩ := Node.handlerOf_ok hstep.result
  cases htype.symm.trans htype'
  obtain ⟨hd, payload', x, hheader', hpayload', hprocessed, rfl⟩ := Node.handleStreamAck_ok hcall
  cases hheader.symm.trans hheader'
  cases hpayload.symm.trans hpayload'
  refine ⟨x, hprocessed, ?_, rfl⟩
  rw [Node.stream_of_update_self rfl]

/-! ### Steps -/

/-- A chunk that is queued in a step was queued before, or added in the step. -/
theorem mem_queued_withNode {n : Node W S ε} {peer : ε} {k : Nat} :
    k ∈ (w.withNode channelId n).queued peer ↔ k ∈ w.queued peer ∨
      w.node.Subscribed channelId peer ∧ (w.encoder channelId).encoder.added.length ≤ k ∧
        k < (n.stream channelId).encoder.encoder.added.length := by
  unfold withNode Node.Subscribed
  dsimp only
  split
  · next hsub =>
      rw [List.mem_append, List.mem_range'_1]
      simp only [hsub, true_and]
      exact or_congr_right (by omega)
  · next hsub => simp [hsub]

theorem Sound.step (hlaw : S.Windowed view) {e : Event ε} (h : w.Sound view channelId)
    (hstep : Step view channelId w e w') : w'.Sound view channelId := by
  obtain ⟨a, htracks⟩ := h.tracks
  cases hstep with
  | @ack around data payload peer expects hd n htype hheader hchannel hpayload hack hsent hrecent
      hnode =>
      subst hchannel
      obtain ⟨x, hprocessed, hencoder, hsubs⟩ := encoder_of_ack htype hheader hpayload hnode
      rw [htracks.firstCovered] at hrecent
      have hafter : (n.stream hd.channelId).encoder.Tracks view (max a expects) :=
        hencoder ▸ htracks.processAck hlaw hack hsent hrecent hprocessed
      obtain ⟨-, rfl⟩ := ContinuousStreamEncoder.processAck_ok_iff.mp hprocessed
      have hrecorded : (n.stream hd.channelId).encoder.encoder.Recorded :=
        hencoder ▸ .ack _ h.recorded
      have hadded : (n.stream hd.channelId).encoder.encoder.added =
          (w.encoder hd.channelId).encoder.added := by
        rw [hencoder]
        rfl
      refine ⟨⟨_, hafter⟩, hrecorded, fun p k hk => ?_⟩
      obtain ⟨hsub, hlt⟩ := h.queued p k hk
      refine ⟨?_, hadded ▸ hlt⟩
      show (n.receiver hd.channelId p).isSome = true
      unfold Node.receiver
      rw [hsubs]
      exact hsub
  | @other e n hnode hother =>
      obtain ⟨hafter, hrecorded, hle⟩ := h.encoder_of_other hlaw hnode hother htracks
      have hgrows := Node.step_grows hnode
      refine ⟨⟨a, hafter⟩, hrecorded, fun p k hk => ?_⟩
      rcases mem_queued_withNode.mp hk with hold | ⟨hsub, -, hlt⟩
      · obtain ⟨hsub, hlt⟩ := h.queued p k hold
        exact ⟨hgrows.subscribed _ _ hsub, lt_of_lt_of_le hlt hle⟩
      · exact ⟨hgrows.subscribed _ _ hsub, hlt⟩

/-- An ack of one subscriber leaves the others protected exactly if it is not ahead of them,
and nothing else can withdraw protection. -/
theorem Sound.protectsAll_iff (hlaw : S.Windowed view) {e : Event ε}
    (h : w.Sound view channelId) (hbefore : w.ProtectsAll view channelId)
    (hstep : Step view channelId w e w') :
    w'.ProtectsAll view channelId ↔ w.SparesOthers channelId e := by
  have hsound := h.step hlaw hstep
  obtain ⟨a, htracks⟩ := h.tracks
  have hold := (Audience.protectsAll_iff htracks h).mp hbefore
  cases hstep with
  | @ack around data payload peer expects hd n htype hheader hchannel hpayload hack hsent hrecent
      hnode =>
      subst hchannel
      obtain ⟨x, hprocessed, hencoder, hsubs⟩ := encoder_of_ack htype hheader hpayload hnode
      rw [htracks.firstCovered] at hrecent
      have hafter := htracks.processAck hlaw hack hsent hrecent hprocessed
      rw [← hencoder] at hafter
      rw [Audience.protectsAll_iff hafter hsound]
      have hsame : ∀ p, n.Subscribed hd.channelId p ↔ w.node.Subscribed hd.channelId p := by
        intro p
        unfold Node.Subscribed Node.receiver
        rw [hsubs]
      have hacked : ∀ p, p ≠ peer → Function.update w.acked peer
          (max (w.acked peer) expects) p = w.acked p := fun p hne => Function.update_of_ne hne _ _
      constructor
      · intro hall p hne hsub k hk hlt
        rw [← hacked p hne]
        exact hall p ((hsame p).mpr hsub) k hk (lt_max_of_lt_right hlt)
      · intro hspares p hsub k hk hlt
        have hsub := (hsame p).mp hsub
        dsimp only
        by_cases hne : p = peer
        · rw [hne, Function.update_self]
          rcases lt_max_iff.mp hlt with hlt | hlt
          · exact lt_max_of_lt_left (hne ▸ hold p hsub k hk hlt)
          · exact lt_max_of_lt_right hlt
        · rw [hacked p hne]
          rcases lt_max_iff.mp hlt with hlt | hlt
          · exact hold p hsub k hk hlt
          · exact hspares p hne hsub k hk hlt
  | @other e n hnode hother =>
      obtain ⟨hafter, -, -⟩ := h.encoder_of_other hlaw hnode hother htracks
      refine iff_of_true ?_ trivial
      rw [Audience.protectsAll_iff hafter hsound]
      intro p hsub k hk hlt
      rcases mem_queued_withNode.mp hk with hqueued | ⟨-, hle, -⟩
      · exact hold p (h.queued p k hqueued).1 k hqueued hlt
      · have := htracks.le
        omega

/-- **Acks withdraw protection exactly if they run ahead.** In every state of a run what was
queued to a subscriber and is not acknowledged by it is covered, and `ALL_ACKED` means that
everyone has acknowledged everything, exactly if no ack of the run is ahead of what the other
subscribers have acknowledged. -/
theorem always_protectsAll_iff (hlaw : S.Windowed view) (channelId : UInt32)
    {es : List (Event ε)} {w : Audience W S ε} :
    Run (fun w e w' => Step view channelId w e w' ∧ w'.ProtectsAll view channelId) {} es w ↔
      Run (fun w e w' => Step view channelId w e w' ∧ w.SparesOthers channelId e) {} es w := by
  have hinit := @sound_init W S ε _ view channelId hlaw
  refine Run.always_iff (I := fun w : Audience W S ε => w.Sound view channelId)
    (P := fun w => w.ProtectsAll view channelId) (G := fun w e => w.SparesOthers channelId e)
    (fun _ _ _ hw hstep => hw.step hlaw hstep)
    (fun _ _ _ hw hprotects hstep => hw.protectsAll_iff hlaw hprotects hstep) hinit ?_
  refine ⟨fun _ _ _ hk => absurd hk List.not_mem_nil, fun _ _ _ _ hk => ?_⟩
  exact absurd hk List.not_mem_nil

/-! ### The record of what is queued -/

/-- The packet of chunk `k`. -/
def chunkPacket (channelId : UInt32) (k : Nat) (chunk : Bytes) : Bytes :=
  Packet.makeStream chunk channelId (UInt32.ofNat (k % siamesePacketNumCount))

/-- What is recorded as queued to a subscriber are the chunks in the packets that were queued
to it. -/
structure Records (channelId : UInt32) (w : Audience W S ε) : Prop where
  packet : ∀ peer, ∀ k ∈ w.queued peer, ∃ chunk,
    (w.encoder channelId).encoder.added[k]? = some chunk ∧
      chunkPacket channelId k chunk ∈ w.node.queuedTo channelId peer
  chunk : ∀ peer, ∀ data ∈ w.node.queuedTo channelId peer, Node.typeOf data = some .stream →
    (word data 3).toNat ≠ packetIndexFec → ∃ k ∈ w.queued peer, ∃ chunk,
      (w.encoder channelId).encoder.added[k]? = some chunk ∧ data = chunkPacket channelId k chunk

theorem records_init : ({} : Audience W S ε).Records channelId where
  packet _ _ hk := absurd hk List.not_mem_nil
  chunk _ _ hdata := absurd hdata List.not_mem_nil

theorem Records.of_leaves (h : w.Records channelId) {n : Node W S ε}
    (hgrows : Node.Grows w.node n) (hleaves : Node.LeavesStream channelId w.node n) :
    (w.withNode channelId n).Records channelId := by
  have hencoder : (n.stream channelId).encoder = w.encoder channelId := by
    rw [hleaves.stream_eq]
    rfl
  have hqueued : ∀ peer, (w.withNode channelId n).queued peer = w.queued peer := by
    intro peer
    unfold withNode
    dsimp only
    rw [hencoder]
    simp
  constructor
  · intro peer k hk
    rw [hqueued] at hk
    obtain ⟨chunk, hget, hpacket⟩ := h.packet peer k hk
    refine ⟨chunk, ?_, (hgrows.queued channelId peer).subset hpacket⟩
    show (n.stream channelId).encoder.encoder.added[k]? = some chunk
    rw [hencoder]
    exact hget
  · intro peer data hdata htype hindex
    obtain ⟨k, hk, chunk, hget, hpacket⟩ :=
      h.chunk peer data (hleaves.queued peer data hdata htype) htype hindex
    refine ⟨k, by rwa [hqueued], chunk, ?_, hpacket⟩
    show (n.stream channelId).encoder.encoder.added[k]? = some chunk
    rw [hencoder]
    exact hget

section handled

variable {around : Surroundings ε} {data : Bytes} {n n' : Node W S ε} {hd : StreamPacketHeader}
  {payload : Bytes} {d₁ d₂ : ContinuousStreamDecoder S} {s₁ : ContinuousStream S}
  {symbols : List Symbol} {e₁ : ContinuousStreamEncoder S} {acks : List (ε × Bytes)}

/-- The symbols of a stream packet are queued to the subscribers, and to nobody else. -/
theorem mem_queuedTo_of_handled
    (h : Node.StreamHandled around data n n' hd payload d₁ d₂ s₁ symbols e₁ acks) {peer : ε}
    {packet : Bytes} : packet ∈ n'.queuedTo hd.channelId peer ↔
      packet ∈ n.queuedTo hd.channelId peer ∨
        n.Subscribed hd.channelId peer ∧ packet ∈ Node.streamPackets hd.channelId symbols := by
  rcases h.queued with ⟨rfl, rfl⟩ | hqueue
  · simp [Node.streamPackets, Node.withStream, Node.counted, Node.queuedTo, Node.receiver]
  · have hqueues := Node.queues_of_queueToAll hqueue
    by_cases hsub : n.Subscribed hd.channelId peer
    · have hqueued := hqueues.queued peer hsub
      rw [hqueued, List.mem_append]
      simp only [hsub, true_and]
      rfl
    · have hunqueued := hqueues.unqueued hd.channelId peer (Or.inr hsub)
      rw [hunqueued]
      simp only [hsub, false_and, or_false]
      rfl

/-- What is drained for a stream packet are the chunks that the encoder adds, under the
numbers of their places. -/
theorem Sound.chunks_of_handled (hlaw : S.Windowed view) (hsound : w.Sound view hd.channelId)
    (h : Node.StreamHandled around data w.node n hd payload d₁ d₂ s₁ symbols e₁ acks) :
    ContinuousStreamEncoder.chunksOf symbols = ContinuousStreamEncoder.numbered
        (w.encoder hd.channelId).encoder.added.length s₁.encoder.pending ∧
      (n.stream hd.channelId).encoder.encoder.added =
        (w.encoder hd.channelId).encoder.added ++ s₁.encoder.pending := by
  obtain ⟨a, htracks⟩ := hsound.tracks
  obtain ⟨hsame, -⟩ := Node.relayChunks_encoder h.relayed
  have hstart : s₁.encoder.Tracks view a := hsame ▸ htracks.withPending s₁.encoder.pending
  have hrecorded : s₁.encoder.encoder.Recorded := hsame ▸ hsound.recorded
  have hbefore : s₁.encoder.encoder.added = (w.encoder hd.channelId).encoder.added := by
    rw [hsame]
    rfl
  have hsymbols :=
    ContinuousStreamEncoder.chunksOf_drainSymbols hlaw.numbers _ hrecorded h.drained
  obtain ⟨-, hadded, -⟩ := ContinuousStreamEncoder.holds_drainSymbols hlaw hstart.holds h.drained
  rw [hbefore] at hsymbols hadded
  refine ⟨hsymbols, ?_⟩
  rw [Node.stream_of_update_self h.effect.2.2.1]
  exact hadded

/-- The index in a stream packet. -/
theorem word_makeStream (chunk : Bytes) (channelId index : UInt32) :
    word (Packet.makeStream chunk channelId index) 3 = index :=
  word_storeWords [0, PacketType.stream.code, channelId, index] chunk 3 (by simp)

/-- A packet that carries no recovery symbol carries a chunk. -/
theorem mem_chunksOf {symbol : Symbol} (hsymbol : symbol ∈ symbols)
    (hindex : (word (Packet.makeStream symbol.1 channelId (UInt32.ofNat symbol.2)) 3).toNat ≠
      packetIndexFec) : symbol ∈ ContinuousStreamEncoder.chunksOf symbols := by
  rw [word_makeStream] at hindex
  refine List.mem_filter.mpr ⟨hsymbol, decide_eq_true ?_⟩
  intro hfec
  rw [hfec] at hindex
  exact hindex rfl

/-- A chunk that is pending has its packet among those of the drain. -/
theorem chunkPacket_mem {pending : List Bytes} {before k : Nat} {chunk : Bytes}
    (hsymbols : ContinuousStreamEncoder.chunksOf symbols =
      ContinuousStreamEncoder.numbered before pending) (hle : before ≤ k)
    (hget : pending[k - before]? = some chunk) :
    chunkPacket channelId k chunk ∈ Node.streamPackets channelId symbols := by
  have hmem : (chunk, k % siamesePacketNumCount) ∈ ContinuousStreamEncoder.chunksOf symbols := by
    rw [hsymbols]
    exact ContinuousStreamEncoder.mem_numbered.mpr ⟨k, hle, hget, rfl⟩
  exact List.mem_map.mpr ⟨_, List.mem_of_mem_filter hmem, rfl⟩

theorem Records.of_handled (hlaw : S.Windowed view) (h : w.Records hd.channelId)
    (hsound : w.Sound view hd.channelId)
    (hhandled : Node.StreamHandled around data w.node n hd payload d₁ d₂ s₁ symbols e₁ acks) :
    (w.withNode hd.channelId n).Records hd.channelId := by
  obtain ⟨hsymbols, hadded⟩ := hsound.chunks_of_handled hlaw hhandled
  have hafter : ((w.withNode hd.channelId n).encoder hd.channelId).encoder.added =
      (w.encoder hd.channelId).encoder.added ++ s₁.encoder.pending := hadded
  have hkept : ∀ {k : Nat} {chunk : Bytes}, (w.encoder hd.channelId).encoder.added[k]? = some chunk →
      ((w.withNode hd.channelId n).encoder hd.channelId).encoder.added[k]? = some chunk := by
    intro k chunk hget
    rw [hafter]
    exact Reassembly.getElem?_of_prefix (List.prefix_append _ _) hget
  have hlength := congrArg List.length hadded
  rw [List.length_append] at hlength
  constructor
  · intro peer k hk
    rcases mem_queued_withNode.mp hk with hold | ⟨hsub, hle, hlt⟩
    · obtain ⟨chunk, hget, hpacket⟩ := h.packet peer k hold
      exact ⟨chunk, hkept hget, (mem_queuedTo_of_handled hhandled).mpr (Or.inl hpacket)⟩
    · -- the chunk was pending
      obtain ⟨chunk, hget⟩ : ∃ chunk, s₁.encoder.pending[
          k - (w.encoder hd.channelId).encoder.added.length]? = some chunk :=
        ⟨_, List.getElem?_eq_getElem (by omega)⟩
      refine ⟨chunk, ?_, (mem_queuedTo_of_handled hhandled).mpr
        (Or.inr ⟨hsub, chunkPacket_mem hsymbols hle hget⟩)⟩
      rw [hafter, List.getElem?_append_right hle]
      exact hget
  · intro peer packet hpacket htype hindex
    rcases (mem_queuedTo_of_handled hhandled).mp hpacket with hpacket | ⟨hsub, hpacket⟩
    · obtain ⟨k, hk, chunk, hget, heq⟩ := h.chunk peer packet hpacket htype hindex
      exact ⟨k, mem_queued_withNode.mpr (Or.inl hk), chunk, hkept hget, heq⟩
    · obtain ⟨symbol, hsymbol, rfl⟩ := List.mem_map.mp hpacket
      have hmem := mem_chunksOf hsymbol hindex
      rw [hsymbols] at hmem
      obtain ⟨k, hle, hget, hplace⟩ := ContinuousStreamEncoder.mem_numbered.mp hmem
      have hlt := (List.getElem?_eq_some_iff.mp hget).1
      refine ⟨k, mem_queued_withNode.mpr (Or.inr ⟨hsub, hle, by omega⟩), symbol.1, ?_, ?_⟩
      · rw [hafter, List.getElem?_append_right hle]
        exact hget
      · rw [chunkPacket, ← hplace]

end handled

/-- **The record is what was queued.** -/
theorem records_of_run (hlaw : S.Windowed view) {es : List (Event ε)}
    (hrun : Run (Step view channelId) {} es w) : w.Records channelId := by
  have hkept := Run.invariant
    (I := fun w : Audience W S ε => w.Sound view channelId ∧ w.Records channelId) ?_ hrun
    ⟨sound_init hlaw, records_init⟩
  · exact hkept.2
  intro w e w' hw hstep
  refine ⟨hw.1.step hlaw hstep, ?_⟩
  cases hstep with
  | @ack around data payload peer expects hd n htype hheader hchannel hpayload _ _ _ hnode =>
      subst hchannel
      obtain ⟨x, hprocessed, hencoder, hsubs⟩ := encoder_of_ack htype hheader hpayload hnode
      obtain ⟨-, rfl⟩ := ContinuousStreamEncoder.processAck_ok_iff.mp hprocessed
      have hadded : (n.stream hd.channelId).encoder.encoder.added =
          (w.encoder hd.channelId).encoder.added := by
        rw [hencoder]
        rfl
      have hqueued : ∀ p, n.queuedTo hd.channelId p = w.node.queuedTo hd.channelId p := by
        intro p
        unfold Node.queuedTo Node.receiver
        rw [hsubs]
      constructor
      · intro p k hk
        obtain ⟨chunk, hget, hpacket⟩ := hw.2.packet p k hk
        exact ⟨chunk, hadded ▸ hget, hqueued p ▸ hpacket⟩
      · intro p packet hpacket htype hindex
        obtain ⟨k, hk, chunk, hget, heq⟩ :=
          hw.2.chunk p packet (hqueued p ▸ hpacket) htype hindex
        exact ⟨k, hk, chunk, hadded ▸ hget, heq⟩
  | other hnode hother =>
      rcases step_of_other hnode hother with hleaves |
        ⟨around, data, hd, payload, d₁, d₂, s₁, symbols, e₁, acks, rfl, hhandled⟩
      · exact hw.2.of_leaves (Node.step_grows hnode) hleaves
      · exact hw.2.of_handled hlaw hw.1 hhandled

/-! ### Runs

Peer 7 subscribes to channel 1, and peer 8 does later. The first chunk of the stream is lost
the first time it arrives, and is queued the second time. -/

/-- A datagram that arrives at the node. -/
def arrival (data : Bytes) (peer : Nat) : Node.Event Nat :=
  .datagram { rounds := 3, clock := fun _ _ => 0 } data peer

/-- The state once something arrived that is no ack. -/
def next (w : Audience replicating windowing Nat) (data : Bytes) (peer : Nat) :
    Audience replicating windowing Nat :=
  w.withNode 1 (Method.after ((arrival data peer).call w.node))

/-- The state once an ack of the peer arrived for the first chunk. -/
def nextAcked (w : Audience replicating windowing Nat) (peer : Nat) :
    Audience replicating windowing Nat :=
  { w with
    node := Method.after ((arrival (Packet.makeStreamAck [1] 1) peer).call w.node)
    acked := Function.update w.acked peer (max (w.acked peer) 1) }

theorem step_next {w : Audience replicating windowing Nat} {data : Bytes} {peer : Nat}
    (hreturned : Method.returned ((arrival data peer).call w.node) = some ())
    (hother : Node.typeOf data ≠ some .streamAck) :
    Step id 1 w (.other (arrival data peer)) (next w data peer) := by
  refine .other ⟨trivial, Method.eq_ok_of_returned hreturned⟩ ?_
  rintro ⟨around, data', peer', h, heq, htype, -⟩
  cases heq
  exact hother htype

theorem step_nextAcked {w : Audience replicating windowing Nat} {peer : Nat}
    (hsent : 1 ≤ (w.encoder 1).encoder.added.length)
    (hrecent : (w.encoder 1).firstCovered id < 1 + siamesePacketNumCount / 2)
    (hreturned : Method.returned
      ((arrival (Packet.makeStreamAck [1] 1) peer).call w.node) = some ()) :
    Step id 1 w (.ack { rounds := 3, clock := fun _ _ => 0 } (Packet.makeStreamAck [1] 1) peer 1)
      (nextAcked w peer) := by
  refine .ack (by decide) (Packet.header_ofHeader _ _) rfl (Packet.payload_ofHeader _ _)
    ⟨[], by decide⟩ hsent hrecent ⟨trivial, Method.eq_ok_of_returned hreturned⟩

def request : Bytes := Packet.makeControl [] actionSubscribe 1 2000

def firstChunk : Bytes := Packet.makeStream [5] 1 0

def secondChunk : Bytes := Packet.makeStream [6] 1 1

/-- The first chunk was queued to peer 7, who was the only subscriber then, and the second one to
peers 7 and 8. -/
def queuedInStep : Audience replicating windowing Nat :=
  next (next (next (next (next {} request 7) firstChunk 9) firstChunk 9) request 8) secondChunk 9

/-- The first chunk was queued to peers 7 and 8. -/
def queuedToTwo : Audience replicating windowing Nat :=
  next (next (next (next {} request 7) request 8) firstChunk 9) firstChunk 9

/-- Two subscribers acknowledge in step what was queued to the first of them alone. What was
queued to both stays protected. -/
theorem always_protectsAll_iff_two_in_step : ∃ es,
    (queuedInStep.queued 7 = [0, 1] ∧ queuedInStep.queued 8 = [1]) ∧
    ((nextAcked (nextAcked queuedInStep 7) 8).acked 7 = 1 ∧
      (nextAcked (nextAcked queuedInStep 7) 8).acked 8 = 1) ∧
    Run (fun w e w' => Step id 1 w e w' ∧ w'.ProtectsAll id 1) {} es
      (nextAcked (nextAcked queuedInStep 7) 8) := by
  have hfirst := @step_next {} request 7 (by decide +kernel) (by decide +kernel)
  have hlost := @step_next (next {} request 7) firstChunk 9 (by decide +kernel) (by decide +kernel)
  have hkept := @step_next (next (next {} request 7) firstChunk 9) firstChunk 9
    (by decide +kernel) (by decide +kernel)
  have hsecond := @step_next (next (next (next {} request 7) firstChunk 9) firstChunk 9) request 8
    (by decide +kernel) (by decide +kernel)
  have hboth := @step_next (next (next (next (next {} request 7) firstChunk 9) firstChunk 9)
    request 8) secondChunk 9 (by decide +kernel) (by decide +kernel)
  have hacked := @step_nextAcked queuedInStep 7 (by decide +kernel) (by decide +kernel)
    (by decide +kernel)
  have hacked' := @step_nextAcked (nextAcked queuedInStep 7) 8 (by decide +kernel)
    (by decide +kernel) (by decide +kernel)
  have hkeys : (queuedInStep.node.subscriptions 1).entries.map Prod.fst = [7, 8] ∧
      ((nextAcked queuedInStep 7).node.subscriptions 1).entries.map Prod.fst = [7, 8] := by
    decide +kernel
  -- peer 8 was not queued the first chunk
  have hspares : queuedInStep.SparesOthers 1
      (.ack { rounds := 3, clock := fun _ _ => 0 } (Packet.makeStreamAck [1] 1) 7 1) := by
    intro other hne hsub
    have hmem := OrderedMap.mem_of_lookup_isSome hsub
    rw [hkeys.1] at hmem
    obtain rfl : other = 8 := by simpa [hne] using hmem
    decide +kernel
  -- peer 7 has acknowledged it
  have hspares' : (nextAcked queuedInStep 7).SparesOthers 1
      (.ack { rounds := 3, clock := fun _ _ => 0 } (Packet.makeStreamAck [1] 1) 8 1) := by
    intro other hne hsub
    have hmem := OrderedMap.mem_of_lookup_isSome hsub
    rw [hkeys.2] at hmem
    obtain rfl : other = 7 := by simpa [hne] using hmem
    decide +kernel
  have hrun : Run (fun w e w' => Step id 1 w e w' ∧ w.SparesOthers 1 e) {} _
      (nextAcked (nextAcked queuedInStep 7) 8) :=
    (((((Run.single ⟨hfirst, trivial⟩).snoc ⟨hlost, trivial⟩).snoc ⟨hkept, trivial⟩).snoc
      ⟨hsecond, trivial⟩).snoc ⟨hboth, trivial⟩).snoc ⟨hacked, hspares⟩ |>.snoc
      ⟨hacked', hspares'⟩
  exact ⟨_, by decide +kernel, by decide +kernel,
    (always_protectsAll_iff Windowing.windowed 1).mpr hrun⟩

/-- Two subscribers are queued the first chunk, and one acknowledges it. -/
theorem ack_withdraws_protection : ¬∀ ⦃es : List (Event Nat)⦄
    ⦃w : Audience replicating windowing Nat⦄, Run (Step id 1) {} es w → w.ProtectsAll id 1 := by
  intro hclaim
  have hfirst := @step_next {} request 7 (by decide +kernel) (by decide +kernel)
  have hsecond := @step_next (next {} request 7) request 8 (by decide +kernel) (by decide +kernel)
  have hlost := @step_next (next (next {} request 7) request 8) firstChunk 9 (by decide +kernel)
    (by decide +kernel)
  have hkept := @step_next (next (next (next {} request 7) request 8) firstChunk 9) firstChunk 9
    (by decide +kernel) (by decide +kernel)
  have hacked := @step_nextAcked queuedToTwo 7 (by decide +kernel) (by decide +kernel)
    (by decide +kernel)
  have hprotects := hclaim (.snoc (.snoc (.snoc (.snoc (.single hfirst) hsecond) hlost) hkept)
    hacked)
  have hsub : (nextAcked queuedToTwo 7).node.Subscribed 1 8 := by
    unfold Node.Subscribed
    decide +kernel
  have hqueued : 0 ∈ (nextAcked queuedToTwo 7).queued 8 := by decide +kernel
  have hunacked : (nextAcked queuedToTwo 7).acked 8 ≤ 0 := by decide
  have hcovers := (hprotects.covers 8 hsub 0 hqueued hunacked).1
  have hcovered : ((nextAcked queuedToTwo 7).encoder 1).firstCovered id = 1 := by decide +kernel
  omega

end Audience

end FecRelay
