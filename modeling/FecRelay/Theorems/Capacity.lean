import FecRelay.Codec.Windowing
import FecRelay.Draining
import FecRelay.Theorems.StreamRelay

/-!
# How many chunks a relay can hold

A node adds every chunk that it relays to the encoder of the channel, whether or not anyone
is subscribed, and only acks make room again. Where the chunks that a packet puts in order
have slots in the encoder's window, the window is never full when one of them is added.
-/

namespace FecRelay

open FecRelay.Base

namespace Node

section capacity

variable {W : Wirehair} {S : Siamese} {ε : Type} [LinearOrder ε]
  {view : S.Encoder → SiameseEncoder} {n n' : Node W S ε}

/-- The chunks that a stream packet puts in order find slots in the encoder of the channel. -/
def HasRoom (view : S.Encoder → SiameseEncoder) (around : Surroundings ε) (data : Bytes)
    (n : Node W S ε) : Prop :=
  n.packetSeq % loseEvery = 0 ∨ ∀ ⦃ack : Bytes⦄ ⦃s : ContinuousStream S⦄,
    relaying around.rounds (data.drop (sizeOfHeader StreamPacketHeader)) (word data 3).toNat
      (n.stream (word data 2)) = .ok ack s →
    (n.stream (word data 2)).encoder.HasSlots fecRatio view s.encoder.pending.length

/-- No chunk of a stream packet is refused by an encoder that is full. -/
def KeepsRoom (view : S.Encoder → SiameseEncoder) (around : Surroundings ε) (data : Bytes)
    (peer : ε) (n : Node W S ε) : Prop :=
  ∀ ⦃n' : Node W S ε⦄, handlePacket around data peer n = .error chunkRefused n' →
    ((n'.stream (word data 2)).encoder.window view).count < siameseMaxPackets

/-- Nothing but a full encoder is in the way of the chunks that a stream packet puts in order:
the codec takes chunks of their lengths, and a recovery symbol that is due covers something. -/
structure Unhindered (view : S.Encoder → SiameseEncoder) (around : Surroundings ε) (data : Bytes)
    (n : Node W S ε) : Prop where
  whole : sizeOfHeader StreamPacketHeader ≤ data.length
  bounded : n.packetSeq ≠ intMax
  covers : (n.stream (word data 2)).encoder.isNextSymbolFec fecRatio = true →
    ((n.stream (word data 2)).encoder.window view).count ≠ 0
  drains : ∀ ⦃ack : Bytes⦄ ⦃s : ContinuousStream S⦄,
    relaying around.rounds (data.drop (sizeOfHeader StreamPacketHeader)) (word data 3).toNat
      (n.stream (word data 2)) = .ok ack s →
    s.encoder.remaining fecRatio < around.rounds ∧
      ∀ chunk ∈ s.encoder.pending, SiameseEncoder.Acceptable chunk

/-- The encoder that is drained is reached through its calls, and has the slots it had before
chunks were queued to it. -/
theorem encoder_of_relaying {events : List (Event ε)} (hrun : Run Step ({} : Node W S ε) events n)
    {c : UInt32} {rounds : Nat} {payload : Bytes} {index : Nat} {ack : Bytes}
    {s : ContinuousStream S} (h : relaying rounds payload index (n.stream c) = .ok ack s) :
    (∃ calls, Run (ContinuousStreamEncoder.Step fecRatio) {} calls s.encoder) ∧
      s.encoder = { (n.stream c).encoder with pending := s.encoder.pending } := by
  obtain ⟨d₁, d₂, -, -, hrelay⟩ := relaying_ok_iff.mp h
  obtain ⟨hsame, more, hmore⟩ := relayChunks_encoder hrelay
  obtain ⟨calls, hcalls⟩ := session_of_run hrun c
  exact ⟨⟨_, hcalls.append hmore⟩, hsame⟩

theorem hasSlots_of_relaying {c : UInt32} {s : ContinuousStream S}
    (hsame : s.encoder = { (n.stream c).encoder with pending := s.encoder.pending }) (m : Nat) :
    s.encoder.HasSlots fecRatio view m ↔ (n.stream c).encoder.HasSlots fecRatio view m := by
  rw [hsame]
  exact Iff.rfl

theorem handlePacket_stream_refused {around : Surroundings ε} {data : Bytes} {peer : ε}
    (htype : typeOf data = some .stream)
    (h : handlePacket around data peer n = .error chunkRefused n') :
    handleStream around data peer n = .error chunkRefused n' := by
  obtain ⟨hd, n₀, hfirst, -⟩ := Method.NeverThrows.bind_error
    (Method.Avoids.lift (Packet.header_avoids isLocal_chunkRefused _ data) n) h
  obtain ⟨hheader, rfl⟩ := Method.lift_ok_iff.mp hfirst
  obtain ⟨hsize, -⟩ := Packet.header_ok_iff.mp hheader
  rw [handlePacket_of_type hsize htype] at h
  exact h

theorem keepsRoom_of_hasRoom (hlaw : S.Windowed view) {events : List (Event ε)}
    (hrun : Run Step ({} : Node W S ε) events n) {around : Surroundings ε} {data : Bytes} {peer : ε}
    (htype : typeOf data = some .stream) (hroom : HasRoom view around data n) :
    KeepsRoom view around data peer n := by
  intro n' hcall
  obtain ⟨hsurvives, ack, s, e', hrelaying, hdrain, hstream⟩ :=
    handleStream_refused (handlePacket_stream_refused htype hcall)
  obtain ⟨⟨calls, hcalls⟩, hsame⟩ := encoder_of_relaying hrun hrelaying
  have hslots := hroom.resolve_left hsurvives hrelaying
  rw [hstream]
  exact ContinuousStreamEncoder.not_full_of_hasSlots hlaw ContinuousStreamEncoder.regular_fecRatio
    _ hcalls ((hasSlots_of_relaying hsame _).mpr hslots) hdrain

/-- A handler that returns found slots for its chunks. -/
theorem hasRoom_of_handlePacket (hlaw : S.Windowed view) {events : List (Event ε)}
    (hrun : Run Step ({} : Node W S ε) events n) {around : Surroundings ε} {data : Bytes} {peer : ε}
    (htype : typeOf data = some .stream) (hcall : handlePacket around data peer n = .ok () n') :
    HasRoom view around data n := by
  by_cases hlose : n.packetSeq % loseEvery = 0
  · exact Or.inl hlose
  refine Or.inr fun ack s hrelaying => ?_
  obtain ⟨t, ht, hhandler⟩ := handlerOf_ok hcall
  cases ht.symm.trans htype
  have hstream : handleStream around data peer n = .ok () n' := hhandler
  have hbounded : n.packetSeq ≠ intMax := by
    rcases handleStream_ok hstream with ⟨hmax, -⟩ | ⟨_, _, _, _, _, _, _, _, hhandled⟩
    · exact hmax
    · exact hhandled.bounded
  obtain ⟨hd, hheader, -⟩ := Method.lift_bind_ok_iff.mp hstream
  obtain ⟨hsize, -⟩ := Packet.header_ok_iff.mp hheader
  obtain ⟨acks, heq⟩ := handleStream_of_relaying peer hsize hbounded hlose hrelaying
  rw [heq] at hstream
  obtain ⟨symbols, n₁, hdrain, -⟩ := Method.bind_ok_iff.mp hstream
  obtain ⟨s₁, hs₁, -⟩ := Method.zoom_ok_iff.mp hdrain
  rw [withStream_stream_self] at hs₁
  obtain ⟨e', he', -⟩ := Method.zoom_ok_iff.mp hs₁
  obtain ⟨⟨calls, hcalls⟩, hsame⟩ := encoder_of_relaying hrun hrelaying
  exact (hasSlots_of_relaying hsame _).mp
    (ContinuousStreamEncoder.hasSlots_of_drainSymbols hlaw ContinuousStreamEncoder.regular_fecRatio _ hcalls he')

/-- A node where nothing is in the way but a full encoder returns, or throws because of it. -/
theorem handlePacket_outcome (hlaw : S.Windowed view) {events : List (Event ε)}
    (hrun : Run Step ({} : Node W S ε) events n) {around : Surroundings ε} {data : Bytes} (peer : ε)
    (htype : typeOf data = some .stream) (hfree : Unhindered view around data n)
    {ack : Bytes} {s : ContinuousStream S}
    (hlose : n.packetSeq % loseEvery ≠ 0)
    (hrelaying : relaying around.rounds (data.drop (sizeOfHeader StreamPacketHeader))
      (word data 3).toNat (n.stream (word data 2)) = .ok ack s) :
    (∃ symbols e', ContinuousStreamEncoder.drainSymbols fecRatio around.rounds s.encoder =
        .ok symbols e') ∨
      ∃ e' n', ContinuousStreamEncoder.drainSymbols fecRatio around.rounds s.encoder =
          .error chunkRefused e' ∧ (e'.window view).count = siameseMaxPackets ∧
        handlePacket around data peer n = .error chunkRefused n' ∧
        n'.stream (word data 2) = { s with encoder := e' } := by
  obtain ⟨⟨calls, hcalls⟩, hsame⟩ := encoder_of_relaying hrun hrelaying
  obtain ⟨hrounds, hacceptable⟩ := hfree.drains hrelaying
  have hcovers : s.encoder.isNextSymbolFec fecRatio = true →
      (s.encoder.window view).count ≠ 0 := by
    rw [hsame]
    exact hfree.covers
  rcases ContinuousStreamEncoder.drainSymbols_outcome hlaw
    ContinuousStreamEncoder.regular_fecRatio around.rounds hcalls hrounds hcovers hacceptable with
    hreturns | ⟨e', hthrows, hfull⟩
  · exact Or.inl hreturns
  obtain ⟨acks, heq⟩ := handleStream_of_relaying peer hfree.whole hfree.bounded hlose hrelaying
  have hsize : sizeOfHeader PacketHeader ≤ data.length := le_trans (by decide) hfree.whole
  have hzoom : ContinuousStream.onEncoder (ContinuousStreamEncoder.drainSymbols fecRatio
      around.rounds) (({ n.counted with sentAcks := acks }.withStream (word data 2) s).stream
        (word data 2)) = .error chunkRefused { s with encoder := e' } := by
    rw [withStream_stream_self]
    exact Method.zoom_of_error hthrows
  have hdrain : drainOn around (word data 2) ({ n.counted with sentAcks := acks }.withStream
      (word data 2) s) = .error chunkRefused _ :=
    Method.bind_of_error (Method.zoom_of_error hzoom)
  exact Or.inr ⟨e', _, hthrows, hfull,
    (handlePacket_of_type hsize htype around peer n).trans (heq.trans hdrain),
    stream_of_update_self rfl⟩

end capacity

/-! ## A stream that nobody acknowledges -/

section unacknowledged

/-- Packet `k` of a stream of zeros on channel 1. -/
def zeroPacket (k : Nat) : Bytes := Packet.makeStream [0] 1 (UInt32.ofNat k)

/-- A node that has passed the first `k` zeros of the stream on to nobody. -/
structure Loaded (k : Nat) (n : Node replicating windowing Nat) : Prop where
  nobody : n.subscriptions 1 = .empty
  seen : (n.stream 1).decoder.decoder.decoder.seen = List.range k
  nextIndex : (n.stream 1).decoder.nextIndex = k
  ahead : (n.stream 1).decoder.symbolsAhead.c = []
  pending : (n.stream 1).encoder.pending = []
  added : (n.stream 1).encoder.encoder.added.length = k
  holds : SiameseEncoder.Holds k 0 (n.stream 1).encoder.encoder.encoder

theorem loaded_init : Loaded 0 {} where
  nobody := rfl
  seen := rfl
  nextIndex := rfl
  ahead := rfl
  pending := rfl
  added := rfl
  holds := SiameseEncoder.holds_init

variable {k : Nat} {n n' : Node replicating windowing Nat}

theorem typeOf_zeroPacket (k : Nat) : typeOf (zeroPacket k) = some .stream := by
  show PacketType.ofCode (word (storeWords
    [0, PacketType.stream.code, 1, UInt32.ofNat k] ++ [0]) 1) = _
  simp [word_storeWords]

theorem drop_zeroPacket (k : Nat) :
    (zeroPacket k).drop (sizeOfHeader StreamPacketHeader) = [0] :=
  (Packet.payload_ok_iff.mp (Packet.payload_ofHeader _ [0])).2

theorem length_zeroPacket (k : Nat) : sizeOfHeader StreamPacketHeader ≤ (zeroPacket k).length :=
  (Packet.payload_ok_iff.mp (Packet.payload_ofHeader _ [0])).1

theorem word_zeroPacket (hk : k < siamesePacketNumCount) :
    word (zeroPacket k) 2 = 1 ∧ (word (zeroPacket k) 3).toNat = k := by
  unfold siamesePacketNumCount at hk
  have hindex : word (zeroPacket k) 3 = UInt32.ofNat k := word_storeWords
    [0, PacketType.stream.code, 1, UInt32.ofNat k] [0] 3 (by simp)
  refine ⟨word_storeWords [0, PacketType.stream.code, 1, UInt32.ofNat k] [0] 2 (by simp), ?_⟩
  rw [hindex]
  exact UInt32.toNat_ofNat_of_lt' (lt_trans hk (by decide))

theorem queueToAll_of_nobody {around : Surroundings Nat} {packets : List Bytes}
    (h : n.subscriptions 1 = .empty) : queueToAll around 1 packets n = .ok () n := by
  have hloop : OrderedMap.forValues (fun peer => queuePackets (around.clock peer) packets)
      (n.subscriptions 1) = .ok () (n.subscriptions 1) := by
    rw [h]
    rfl
  have hzoom : queueToAll around 1 packets n = .ok () { n with
      subscriptions := Function.update n.subscriptions 1 (n.subscriptions 1) } := by
    unfold queueToAll onSubscriptions
    exact Method.zoom_of_ok hloop
  rw [hzoom, Function.update_eq_self]

/-- A decoder of the codec never says that it is ready. -/
theorem decodeLoop_windowing (rounds : Nat) (d : ContinuousStreamDecoder windowing) :
    ContinuousStreamDecoder.decodeLoop (rounds + 1) d = .ok () d :=
  ContinuousStreamDecoder.decodeLoop_ok_iff.mpr ⟨false, d.decoder,
    StreamFecDecoder.hasData_ok_iff.mpr ⟨Or.inr ⟨rfl, rfl⟩, rfl⟩, Or.inl ⟨rfl, rfl⟩⟩

/-- The only chunk that waits is passed on if it is next. -/
theorem relayChunks_single {s : ContinuousStream windowing} {data : Bytes}
    (hnext : s.decoder.nextIndex = k) (hahead : s.decoder.symbolsAhead = ⟨[(data, k)]⟩) :
    ContinuousStream.relayChunks s = .ok () (s.passOn (data, k)) ∧
      (s.passOn (data, k)).decoder.symbolsAhead = ⟨[]⟩ := by
  have htop : s.decoder.symbolsAhead.top = some (data, k) := by
    rw [hahead]
    rfl
  have hrounds : s.decoder.symbolsAhead.c.length + 1 = 2 := by
    rw [hahead]
    rfl
  have hempty : (s.passOn (data, k)).decoder.symbolsAhead = ⟨[]⟩ := by
    show (⟨s.decoder.symbolsAhead.c.erase (data, k)⟩ :
      MovablePriorityQueue Symbol leastIndexTop) = _
    rw [hahead]
    simp
  have hend : (s.passOn (data, k)).decoder.hasData = false := by
    unfold ContinuousStreamDecoder.hasData
    rw [hempty]
    rfl
  refine ⟨?_, hempty⟩
  rw [ContinuousStream.relayChunks, Method.bind_of_ok (Method.get_apply _), hrounds,
    ContinuousStream.relayLoop_of_top htop hnext.symm, ContinuousStream.relayLoop,
    Method.bind_of_ok (Method.get_apply _), hend]
  rfl

/-- A chunk that is next in order is passed on at once. -/
theorem relaying_next {s : ContinuousStream windowing} (hseen : k ∉ s.decoder.decoder.decoder.seen)
    (hnext : s.decoder.nextIndex = k) (hahead : s.decoder.symbolsAhead.c = [])
    (hk : k ≠ packetIndexFec) (rounds : Nat) (data : Bytes) :
    ∃ ack s', Node.relaying (rounds + 1) data k s = .ok ack s' ∧
      s'.decoder.decoder.decoder.seen = s.decoder.decoder.decoder.seen ++ [k] ∧
      s'.decoder.nextIndex = siamesePacketNumInc k ∧ s'.decoder.symbolsAhead.c = [] ∧
      s'.encoder = { s.encoder with pending := s.encoder.pending ++ [data] } := by
  have hadd : (windowing.decoderAddOriginal s.decoder.decoder.decoder k data) = (.success, {
      seen := s.decoder.decoder.decoder.seen ++ [k]
      pending := s.decoder.decoder.decoder.pending.filter fun p => p.1 != k }) := if_neg hseen
  obtain ⟨x, hx, hxseen⟩ : ∃ x : StreamFecDecoder windowing,
      StreamFecDecoder.processSymbol data k s.decoder.decoder = .ok () x ∧
        x.decoder.seen = s.decoder.decoder.decoder.seen ++ [k] := by
    have htakes : s.decoder.decoder.Takes data k := by
      rw [StreamFecDecoder.Takes, if_neg hk]
      exact Or.inl (congrArg Prod.fst hadd)
    refine ⟨_, StreamFecDecoder.processSymbol_of_taken htakes, ?_⟩
    rw [if_neg hk, hadd]
  have hdecoder : ContinuousStreamDecoder.processSymbol (rounds + 1) data k s.decoder = .ok ()
      (ContinuousStreamDecoder.withChunk { s.decoder with decoder := x } (data, k)) :=
    ContinuousStreamDecoder.processSymbol_ok_iff.mpr
      ⟨x, hx, by rw [if_neg hk]; exact decodeLoop_windowing rounds _⟩
  -- an ack is sent as soon as anything was seen
  have hne : x.decoder.seen ≠ [] := by
    rw [hxseen]
    simp
  have hacks : windowing.decoderAck x.decoder maxBlockPacketSize =
      (.success, serializeHeaderPacketNum (x.decoder.expects % siamesePacketNumCount), x.decoder) :=
    if_neg hne
  obtain ⟨ack, hack⟩ : ∃ ack, StreamFecDecoder.generateAck x = .ok ack x :=
    ⟨_, StreamFecDecoder.generateAck_ok_iff.mpr ⟨congrArg Prod.fst hacks, rfl, by rw [hacks]⟩⟩
  have hgenerate : ContinuousStreamDecoder.generateAck (ContinuousStreamDecoder.withChunk
      { s.decoder with decoder := x } (data, k)) = .ok ack (ContinuousStreamDecoder.withChunk
        { s.decoder with decoder := x } (data, k)) := by
    unfold ContinuousStreamDecoder.generateAck ContinuousStreamDecoder.onDecoder
    exact Method.zoom_of_ok hack
  -- the chunk waits alone
  have hwaits : (ContinuousStreamDecoder.withChunk { s.decoder with decoder := x }
      (data, k)).symbolsAhead = ⟨[(data, k)]⟩ := by
    show (if k < s.decoder.nextIndex then _ else _) = _
    rw [if_neg (by omega), hahead]
    rfl
  obtain ⟨hrelay, hempty⟩ := relayChunks_single (s := ⟨ContinuousStreamDecoder.withChunk
    { s.decoder with decoder := x } (data, k), s.encoder⟩) hnext hwaits
  refine ⟨ack, _, relaying_ok_iff.mpr ⟨_, _, hdecoder, hgenerate, hrelay⟩, hxseen, ?_, ?_, rfl⟩
  · show siamesePacketNumInc s.decoder.nextIndex = _
    rw [hnext]
  · rw [hempty]

/-- The next packet puts one chunk in order. -/
theorem Loaded.relaying (h : Loaded k n) (hk : k < siamesePacketNumCount) (rounds : Nat) :
    ∃ ack s, Node.relaying (rounds + 1) [0] k (n.stream 1) = .ok ack s ∧
      s.decoder.decoder.decoder.seen = List.range (k + 1) ∧
      s.decoder.nextIndex = siamesePacketNumInc k ∧ s.decoder.symbolsAhead.c = [] ∧
      s.encoder = { (n.stream 1).encoder with pending := [[0]] } := by
  have hfec : k ≠ packetIndexFec := by
    unfold siamesePacketNumCount at hk
    unfold packetIndexFec
    omega
  have hnew : k ∉ (n.stream 1).decoder.decoder.decoder.seen := by
    rw [h.seen]
    simp
  obtain ⟨ack, s, hcall, hseen, hnext, hahead, hencoder⟩ :=
    relaying_next hnew h.nextIndex h.ahead hfec rounds [0]
  rw [h.seen, ← List.range_succ] at hseen
  rw [h.pending] at hencoder
  exact ⟨ack, s, hcall, hseen, hnext, hahead, hencoder⟩

/-- There are slots for one more chunk as long as there are less than there can be. -/
theorem Loaded.hasSlots_iff (h : Loaded k n) :
    (n.stream 1).encoder.HasSlots fecRatio id 1 ↔ k < siameseMaxPackets :=
  ContinuousStreamEncoder.hasSlots_of_unacked h.holds.window 1

theorem Loaded.holds_relaying (h : Loaded k n) {s : ContinuousStream windowing}
    (hencoder : s.encoder = { (n.stream 1).encoder with pending := [[0]] }) :
    (id s.encoder.encoder.encoder : SiameseEncoder).Holds s.encoder.encoder.added.length 0 := by
  rw [hencoder]
  show SiameseEncoder.Holds (n.stream 1).encoder.encoder.added.length 0 _
  rw [h.added]
  exact h.holds

/-- As many rounds as the loops over a codec need for the next packet. -/
def roundsFor (n : Node replicating windowing Nat) : Surroundings Nat where
  rounds := ({ (n.stream 1).encoder with pending := [[0]] } :
    ContinuousStreamEncoder windowing).remaining fecRatio + 1
  clock _ _ := 0

/-- Nothing but a full encoder is in the way of the next packet. -/
theorem Loaded.unhindered (h : Loaded k n) {events : List (Event Nat)}
    (hrun : Run Step ({} : Node replicating windowing Nat) events n)
    (hk : k < siamesePacketNumCount) (hbounded : n.packetSeq ≠ intMax) :
    Unhindered id (roundsFor n) (zeroPacket k) n := by
  obtain ⟨hchannel, hindex⟩ := word_zeroPacket hk
  refine ⟨length_zeroPacket k, hbounded, ?_, ?_⟩
  · rw [hchannel]
    intro hfec hcount
    -- with an empty window nothing was ever sent, and the first symbol is a chunk
    obtain ⟨calls, hcalls⟩ := session_of_run hrun 1
    have hpaced := ContinuousStreamEncoder.paced_of_run ContinuousStreamEncoder.regular_fecRatio
      hcalls
    have huntil := (hpaced.untilRecovery_eq_zero_iff
      ContinuousStreamEncoder.regular_fecRatio).mpr hfec
    have hzero := h.holds.window.empty hcount
    have hadded := h.added
    have hdue := Pacing.due_pos (numerator_pos ContinuousStreamEncoder.regular_fecRatio.pos) (show 0 < fecRatio.den from fecRatio.den_pos)
      (n.stream 1).encoder.encoder.emitted.length
    unfold ContinuousStreamEncoder.untilRecovery at huntil
    omega
  · rw [drop_zeroPacket, hchannel, hindex]
    intro ack s hrelaying
    obtain ⟨ack', s', hcall, -, -, -, hencoder⟩ := h.relaying hk ((roundsFor n).rounds - 1)
    cases hrelaying.symm.trans hcall
    rw [hencoder]
    refine ⟨Nat.lt_succ_self _, ?_⟩
    intro chunk hchunk
    rw [List.mem_singleton.mp hchunk]
    decide

/-- The next packet has room as long as there is a slot for its chunk. -/
theorem Loaded.hasRoom (h : Loaded k n) (hk : k < siameseMaxPackets) :
    HasRoom id (roundsFor n) (zeroPacket k) n := by
  have hnum : k < siamesePacketNumCount := lt_trans hk (by decide)
  obtain ⟨hchannel, hindex⟩ := word_zeroPacket hnum
  obtain ⟨ack', s', hcall, -, -, -, hencoder⟩ := h.relaying hnum ((roundsFor n).rounds - 1)
  refine Or.inr fun ack s hrelaying => ?_
  rw [drop_zeroPacket, hchannel, hindex] at hrelaying
  cases hrelaying.symm.trans hcall
  rw [hchannel, hencoder]
  exact h.hasSlots_iff.mpr hk

/-- A full encoder has no room for a packet that gets through. -/
theorem Loaded.not_hasRoom (h : Loaded siameseMaxPackets n) (hlose : n.packetSeq % loseEvery ≠ 0) :
    ¬HasRoom id (roundsFor n) (zeroPacket siameseMaxPackets) n := by
  have hnum : siameseMaxPackets < siamesePacketNumCount := by decide
  obtain ⟨hchannel, hindex⟩ := word_zeroPacket hnum
  obtain ⟨ack, s, hcall, -, -, -, hencoder⟩ := h.relaying hnum ((roundsFor n).rounds - 1)
  rintro (hlost | hroom)
  · exact hlose hlost
  · have hslots := @hroom ack s (by
      rw [drop_zeroPacket, hchannel, hindex]
      exact hcall)
    rw [hchannel, hencoder] at hslots
    exact absurd (h.hasSlots_iff.mp hslots) (lt_irrefl _)

/-- The drain of the next chunk returns, and the codec holds one packet more. -/
theorem Loaded.drain (h : Loaded k n) {events : List (Event Nat)}
    (hrun : Run Step ({} : Node replicating windowing Nat) events n)
    (hk : k < siameseMaxPackets) (hbounded : n.packetSeq ≠ intMax) {ack : Bytes}
    {s : ContinuousStream windowing}
    (hcall : Node.relaying (roundsFor n).rounds [0] k (n.stream 1) = .ok ack s)
    (hencoder : s.encoder = { (n.stream 1).encoder with pending := [[0]] }) :
    ∃ symbols e', ContinuousStreamEncoder.drainSymbols fecRatio (roundsFor n).rounds s.encoder =
        .ok symbols e' ∧ e'.pending = [] ∧ e'.encoder.added.length = k + 1 ∧
      SiameseEncoder.Holds (k + 1) 0 e'.encoder.encoder := by
  have hnum : k < siamesePacketNumCount := lt_trans hk (by decide)
  obtain ⟨hchannel, hindex⟩ := word_zeroPacket hnum
  have hfree := h.unhindered hrun hnum hbounded
  have hrelaying : Node.relaying (roundsFor n).rounds
      ((zeroPacket k).drop (sizeOfHeader StreamPacketHeader)) (word (zeroPacket k) 3).toNat
        (n.stream (word (zeroPacket k) 2)) = .ok ack s := by
    rw [drop_zeroPacket, hchannel, hindex]
    exact hcall
  obtain ⟨⟨calls, hcalls⟩, -⟩ := encoder_of_relaying hrun hcall
  obtain ⟨hrounds, hacceptable⟩ := hfree.drains hrelaying
  have hslots : s.encoder.HasSlots fecRatio id s.encoder.pending.length := by
    rw [hencoder]
    exact h.hasSlots_iff.mpr hk
  have hcovers : s.encoder.isNextSymbolFec fecRatio = true → (s.encoder.window id).count ≠ 0 := by
    have hcovers := hfree.covers
    rw [hchannel] at hcovers
    rw [hencoder]
    exact hcovers
  obtain ⟨symbols, e', hdrain⟩ := ContinuousStreamEncoder.drainSymbols_returns Windowing.windowed
    ContinuousStreamEncoder.regular_fecRatio hcalls hrounds hcovers hacceptable hslots
  obtain ⟨hholds, hadded, hpending⟩ := ContinuousStreamEncoder.holds_drainSymbols
    Windowing.windowed (h.holds_relaying hencoder) hdrain
  have hlength : e'.encoder.added.length = k + 1 := by
    rw [hadded, hencoder]
    show ((n.stream 1).encoder.encoder.added ++ [[0]]).length = k + 1
    rw [List.length_append, h.added]
    rfl
  rw [hlength] at hholds
  exact ⟨symbols, e', hdrain, hpending, hlength, hholds⟩

/-- A packet that is not lost adds its chunk to the encoder. -/
theorem Loaded.step (h : Loaded k n) {events : List (Event Nat)}
    (hrun : Run Step ({} : Node replicating windowing Nat) events n)
    (hk : k < siameseMaxPackets) (hbounded : n.packetSeq ≠ intMax)
    (hlose : n.packetSeq % loseEvery ≠ 0) :
    ∃ n', Step n (.datagram (roundsFor n) (zeroPacket k) 0) n' ∧ Loaded (k + 1) n' ∧
      n'.packetSeq = n.packetSeq + 1 := by
  have hnum : k < siamesePacketNumCount := lt_trans hk (by decide)
  obtain ⟨hchannel, hindex⟩ := word_zeroPacket hnum
  obtain ⟨ack, s, hcall, hseen, hnext, hahead, hencoder⟩ :=
    h.relaying hnum ((roundsFor n).rounds - 1)
  obtain ⟨symbols, e', hdrain, hpending, hlength, hholds⟩ :=
    h.drain hrun hk hbounded hcall hencoder
  have hrelaying : Node.relaying (roundsFor n).rounds
      ((zeroPacket k).drop (sizeOfHeader StreamPacketHeader)) (word (zeroPacket k) 3).toNat
        (n.stream (word (zeroPacket k) 2)) = .ok ack s := by
    rw [drop_zeroPacket, hchannel, hindex]
    exact hcall
  have hsurvives := handleStream_of_relaying 0 (length_zeroPacket k) hbounded hlose hrelaying
  rw [hchannel] at hsurvives
  obtain ⟨acks, heq⟩ := hsurvives
  have hdrainOn : drainOn (roundsFor n) 1
      (({ n.counted with sentAcks := acks } : Node replicating windowing Nat).withStream 1 s) = .ok ()
        (({ n.counted with sentAcks := acks } : Node replicating windowing Nat).withStream 1
          { s with encoder := e' }) := by
    rw [drainOn_of_drained (by rw [withStream_stream_self]; exact hdrain), withStream_stream_self,
      withStream_withStream]
    -- there is nobody to queue anything to
    split
    · exact queueToAll_of_nobody h.nobody
    · rfl
  have hsize : sizeOfHeader PacketHeader ≤ (zeroPacket k).length :=
    le_trans (by decide) (length_zeroPacket k)
  refine ⟨_, ⟨trivial, (handlePacket_of_type hsize (typeOf_zeroPacket k) _ 0 n).trans
    (heq.trans hdrainOn)⟩, ?_, rfl⟩
  have hstream : (({ n.counted with sentAcks := acks } : Node replicating windowing Nat).withStream 1
      { s with encoder := e' }).stream 1 = { s with encoder := e' } := stream_of_update_self rfl
  have hinc : siamesePacketNumInc k = k + 1 :=
    siamesePacketNumInc_of_lt (lt_of_le_of_lt hk (by decide))
  constructor
  · exact h.nobody
  all_goals rw [hstream]
  · exact hseen
  · exact hnext.trans hinc
  · exact hahead
  · exact hpending
  · exact hlength
  · exact hholds

/-- A packet that is lost changes nothing but the count. -/
theorem Loaded.lost (h : Loaded k n) (hbounded : n.packetSeq ≠ intMax)
    (hlose : n.packetSeq % loseEvery = 0) :
    Step n (.datagram (roundsFor n) (zeroPacket k) 0) n.counted ∧ Loaded k n.counted := by
  have hheader := Packet.header_ok_iff.mpr
    ⟨length_zeroPacket k, (rfl : (PacketLayout.view (zeroPacket k) : StreamPacketHeader) = _)⟩
  have hstream : handleStream (roundsFor n) (zeroPacket k) 0 n = .ok () n.counted := by
    rw [handleStream_eq, hheader, Method.bind_of_ok (Method.lift_ok _ n)]
    exact lossy_ok_iff.mpr ⟨hbounded, Or.inl ⟨hlose, rfl⟩⟩
  have hsize : sizeOfHeader PacketHeader ≤ (zeroPacket k).length :=
    le_trans (by decide) (length_zeroPacket k)
  refine ⟨⟨trivial, (handlePacket_of_type hsize (typeOf_zeroPacket k) _ 0 n).trans hstream⟩, ?_⟩
  exact ⟨h.nobody, h.seen, h.nextIndex, h.ahead, h.pending, h.added, h.holds⟩

/-- A packet that is sent anew if it is lost gets through. -/
theorem Loaded.arrives (h : Loaded k n) (hbounded : n.packetSeq + 1 < intMax) :
    ∃ events' n', Run Step n events' n' ∧ Loaded k n' ∧ n'.packetSeq % loseEvery ≠ 0 ∧
      n'.packetSeq ≤ n.packetSeq + 1 ∧
      ∀ x ∈ events', ∃ around, x = .datagram around (zeroPacket k) 0 := by
  by_cases hlose : n.packetSeq % loseEvery = 0
  · obtain ⟨hstep, hloaded⟩ := h.lost (by omega) hlose
    refine ⟨_, _, .single hstep, hloaded, ?_, le_refl _, ?_⟩
    · show (n.packetSeq + 1) % loseEvery ≠ 0
      unfold loseEvery at hlose ⊢
      omega
    · intro x hx
      exact ⟨_, List.mem_singleton.mp hx⟩
  · exact ⟨[], n, .nil n, h, hlose, by omega, fun x hx => absurd hx List.not_mem_nil⟩

/-- A node that nobody is subscribed to can be sent as many packets as the encoder holds. -/
theorem exists_loaded : ∀ k, k ≤ siameseMaxPackets → ∃ events n,
    Run Step ({} : Node replicating windowing Nat) events n ∧ Loaded k n ∧ n.packetSeq ≤ 2 * k ∧
      ∀ x ∈ events, ∃ around i, i < k ∧ x = .datagram around (zeroPacket i) 0 := by
  intro k
  induction k with
  | zero => exact fun _ => ⟨[], {}, .nil _, loaded_init, le_refl _,
      fun x hx => absurd hx List.not_mem_nil⟩
  | succ k ih =>
      intro hk
      obtain ⟨events, n, hrun, hloaded, hseq, hevents⟩ := ih (by omega)
      have hfew : siameseMaxPackets < 2 ^ 20 := by decide
      have hmax : intMax = 2 ^ 31 - 1 := rfl
      obtain ⟨events', n', hrun', hloaded', hlose, hseq', hevents'⟩ := hloaded.arrives (by omega)
      obtain ⟨n'', hstep, hloaded'', hseq''⟩ :=
        hloaded'.step (hrun.append hrun') hk (by omega) hlose
      refine ⟨_, n'', .snoc (hrun.append hrun') hstep, hloaded'', by omega, ?_⟩
      intro x hx
      rcases List.mem_append.mp hx with hx | hx
      · rcases List.mem_append.mp hx with hx | hx
        · obtain ⟨around, i, hi, rfl⟩ := hevents x hx
          exact ⟨around, i, by omega, rfl⟩
        · obtain ⟨around, rfl⟩ := hevents' x hx
          exact ⟨around, k, by omega, rfl⟩
      · exact ⟨_, k, by omega, List.mem_singleton.mp hx⟩

/-- A publisher whose every chunk is acknowledged at once can add as many as it likes. -/
theorem exists_encoderRun : ∀ k, ∃ e : windowing.Encoder,
    windowing.EncoderRun (List.replicate k [0]) [] e ∧ SiameseEncoder.Holds k k e := by
  intro k
  induction k with
  | zero => exact ⟨_, .create, SiameseEncoder.holds_init⟩
  | succ k ih =>
      obtain ⟨e, hrun, hholds⟩ := ih
      have hempty : e.window.count = 0 := hholds.window.count_eq_zero_iff.mpr rfl
      have hroom : e.window.count < siameseMaxPackets := by
        rw [hempty]
        decide
      have hsuccess : (windowing.encoderAdd e [0]).1 = .success :=
        Windowing.windowed.add_success_iff.mpr ⟨by decide, hroom⟩
      have hadded := (Windowing.windowed.of_add hsuccess).2
      have hfits : (k + 1) % siamesePacketNumCount < siamesePacketNumCount :=
        Nat.mod_lt _ (by decide)
      have hnum := deserializeHeaderPacketNum_serialize hfits []
      have hack := Windowing.encoderAck_of_some (s := (windowing.encoderAdd e [0]).2.2) hnum
      have hmore : windowing.EncoderRun (List.replicate (k + 1) [0]) []
          (windowing.encoderAdd e [0]).2.2 := by
        rw [List.replicate_succ']
        exact .add hrun hsuccess
      refine ⟨_, .ack (serializeHeaderPacketNum ((k + 1) % siamesePacketNumCount) ++ []) hmore, ?_⟩
      show SiameseEncoder.Holds (k + 1) (k + 1) (Windowing.encoderAck _ _).2.2
      rw [hack]
      have hholds' : SiameseEncoder.Holds (k + 1) k (windowing.encoderAdd e [0]).2.2 := by
        show SiameseEncoder.Holds (k + 1) k (id (windowing.encoderAdd e [0]).2.2)
        rw [hadded]
        exact hholds.add hroom _
      have hdone := hholds'.acknowledge (le_refl (k + 1)) (by omega) []
      rw [max_eq_right (Nat.le_succ k)] at hdone
      exact hdone

theorem genuine_zeroPacket {m i : Nat} (h : i < m) (hm : m < siamesePacketNumCount) :
    Genuine 1 (List.replicate m [0]) [] (zeroPacket i) := by
  intro _
  refine ⟨([0], i), rfl, ?_⟩
  unfold Carries
  unfold siamesePacketNumCount at hm
  rw [if_neg (by unfold packetIndexFec; show i ≠ _; omega)]
  simp [h]

end unacknowledged

/-! ## Room for a stream -/

/-- As many packets as the encoder holds were relayed, and the next one gets through. -/
theorem exists_full : ∃ events n, Run Step ({} : Node replicating windowing Nat) events n ∧
    Loaded siameseMaxPackets n ∧ n.packetSeq % loseEvery ≠ 0 ∧ n.packetSeq ≠ intMax ∧
      ∀ x ∈ events, ∃ around, ∃ i ≤ siameseMaxPackets, x = .datagram around (zeroPacket i) 0 := by
  have hmax : intMax = 2 ^ 31 - 1 := rfl
  have hfew : siameseMaxPackets < 2 ^ 20 := by decide
  obtain ⟨events, n, hrun, hloaded, hseq, hevents⟩ := exists_loaded siameseMaxPackets le_rfl
  obtain ⟨events', n', hrun', hloaded', hlose, hseq', hevents'⟩ := hloaded.arrives (by omega)
  refine ⟨_, n', hrun.append hrun', hloaded', hlose, by omega, fun x hx => ?_⟩
  rcases List.mem_append.mp hx with hx | hx
  · obtain ⟨around, i, hi, heq⟩ := hevents x hx
    exact ⟨around, i, hi.le, heq⟩
  · obtain ⟨around, heq⟩ := hevents' x hx
    exact ⟨around, _, le_rfl, heq⟩

/-- In every run of a node, whatever its subscribers acknowledge: while the chunks that a
stream packet puts in order find slots, none is refused by a full encoder; where they do
not, the handler does not return, and a full encoder is why if nothing else is in the way. -/
theorem keepsRoom_iff {W : Wirehair} {S : Siamese} {ε : Type} [LinearOrder ε]
    {view : S.Encoder → SiameseEncoder} (hlaw : S.Windowed view) {events : List (Event ε)}
    {n : Node W S ε} (hrun : Run Step {} events n) (around : Surroundings ε) {data : Bytes}
    (peer : ε) (htype : typeOf data = some .stream) :
    (HasRoom view around data n → KeepsRoom view around data peer n) ∧
      (¬HasRoom view around data n → (∀ n', handlePacket around data peer n ≠ .ok () n') ∧
        (Unhindered view around data n → ∃ n',
          handlePacket around data peer n = .error chunkRefused n' ∧
            ((n'.stream (word data 2)).encoder.window view).count = siameseMaxPackets)) := by
  refine ⟨keepsRoom_of_hasRoom hlaw hrun htype, fun hroom => ⟨fun n' hcall => hroom ?_, ?_⟩⟩
  · exact hasRoom_of_handlePacket hlaw hrun htype hcall
  intro hfree
  unfold HasRoom at hroom
  push Not at hroom
  obtain ⟨hlose, ack, s, hrelaying, hslots⟩ := hroom
  rcases handlePacket_outcome hlaw hrun peer htype hfree hlose hrelaying with
    ⟨symbols, e', hdrain⟩ | ⟨e', n', -, hfull, hcall, hstream⟩
  · obtain ⟨⟨calls, hcalls⟩, hsame⟩ := encoder_of_relaying hrun hrelaying
    refine absurd ((hasSlots_of_relaying hsame _).mp ?_) hslots
    exact ContinuousStreamEncoder.hasSlots_of_drainSymbols hlaw
      ContinuousStreamEncoder.regular_fecRatio _ hcalls hdrain
  · refine ⟨n', hcall, ?_⟩
    rw [hstream]
    exact hfull

/-- The first packet of a stream after one that was lost, and the packet after as many as the
encoder holds. -/
theorem keepsRoom_iff_counted_and_full :
    KeepsRoom id (roundsFor ({} : Node replicating windowing Nat).counted) (zeroPacket 0) 0
      ({} : Node replicating windowing Nat).counted ∧
    ∃ events n, Run Step ({} : Node replicating windowing Nat) events n ∧
      Loaded siameseMaxPackets n ∧ ∃ n',
        handlePacket (roundsFor n) (zeroPacket siameseMaxPackets) 0 n = .error chunkRefused n' ∧
          ((n'.stream (word (zeroPacket siameseMaxPackets) 2)).encoder.window id).count =
            siameseMaxPackets := by
  have hlost := loaded_init.lost (by decide) (by decide)
  refine ⟨(keepsRoom_iff Windowing.windowed (.single hlost.1) _ 0 (typeOf_zeroPacket 0)).1
    (hlost.2.hasRoom (by decide)), ?_⟩
  obtain ⟨events, n, hrun, hloaded, hlose, hbounded, -⟩ := exists_full
  exact ⟨events, n, hrun, hloaded,
    ((keepsRoom_iff Windowing.windowed hrun _ 0 (typeOf_zeroPacket _)).2
      (hloaded.not_hasRoom hlose)).2 (hloaded.unhindered hrun (by decide) hbounded)⟩

/-- Nobody is subscribed and nothing is acknowledged: the encoder refuses chunk 16000. -/
theorem unacknowledged_stream_fills_encoder : ¬∀ ⦃added emitted : List Bytes⦄
    ⦃encoder : windowing.Encoder⦄, windowing.EncoderRun added emitted encoder →
    ∀ ⦃events : List (Event Nat)⦄ ⦃n : Node replicating windowing Nat⦄, Run Step {} events n →
    (∀ around data peer, .datagram around data peer ∈ events → Genuine 1 added emitted data) →
    ∀ around data peer n', typeOf data = some .stream → Genuine 1 added emitted data →
      handlePacket around data peer n = .error chunkRefused n' →
      ((n'.stream 1).encoder.window id).getUnacknowledgedCount < siameseMaxPackets := by
  intro hclaim
  obtain ⟨encoder, hpublished, -⟩ := exists_encoderRun 16001
  have hmax : siameseMaxPackets = 16000 := rfl
  have hnum : siameseMaxPackets < siamesePacketNumCount := by decide
  obtain ⟨events, n₁, hrun₁, hloaded', hlose, hbounded, hevents⟩ := exists_full
  have hgenuine : ∀ around data peer, .datagram around data peer ∈ events →
      Genuine 1 (List.replicate 16001 [0]) [] data := by
    intro around data peer hmem
    obtain ⟨_, i, hi, heq⟩ := hevents _ hmem
    cases heq
    exact genuine_zeroPacket (by omega) (by decide)
  -- what packet 16000 leads to
  obtain ⟨hchannel, hindex⟩ := word_zeroPacket hnum
  have hfree := hloaded'.unhindered hrun₁ hnum hbounded
  obtain ⟨ack, s, hcall, -, -, -, hencoder⟩ := hloaded'.relaying hnum ((roundsFor n₁).rounds - 1)
  have hrelaying : Node.relaying (roundsFor n₁).rounds
      ((zeroPacket siameseMaxPackets).drop (sizeOfHeader StreamPacketHeader))
      (word (zeroPacket siameseMaxPackets) 3).toNat (n₁.stream (word (zeroPacket siameseMaxPackets) 2)) = .ok ack s := by
    rw [drop_zeroPacket, hchannel, hindex]
    exact hcall
  rcases handlePacket_outcome Windowing.windowed hrun₁ 0 (typeOf_zeroPacket _) hfree hlose
    hrelaying with ⟨symbols, e', hdrain⟩ | ⟨e', n', hdrain, hfull, hthrows, hstream⟩
  · obtain ⟨⟨calls, hcalls⟩, -⟩ := encoder_of_relaying hrun₁ hcall
    have hslots := ContinuousStreamEncoder.hasSlots_of_drainSymbols Windowing.windowed
      ContinuousStreamEncoder.regular_fecRatio _ hcalls hdrain
    rw [hencoder] at hslots
    exact absurd (hloaded'.hasSlots_iff.mp hslots) (lt_irrefl _)
  · have hless := hclaim hpublished hrun₁ hgenuine _ _ _ n' (typeOf_zeroPacket _)
      (genuine_zeroPacket (by omega) (by decide)) hthrows
    rw [hchannel] at hstream
    rw [hstream] at hless
    -- all that the window holds is unacknowledged
    obtain ⟨m, hholds⟩ := ContinuousStreamEncoder.holds_of_drain_refused Windowing.windowed _
      (hloaded'.holds_relaying hencoder) hdrain
    have hwindow : (e'.window id).Holds m 0 := hholds.window
    have htaken := hwindow.slots.1
    have hcount := (e'.window id).count_le_slotsTaken
    have hunacked := hwindow.unacknowledged
    have hless : (e'.window id).getUnacknowledgedCount < siameseMaxPackets := hless
    omega

end Node

end FecRelay
