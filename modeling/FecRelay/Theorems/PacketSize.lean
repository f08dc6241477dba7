import FecRelay.Codec.Sums
import FecRelay.Codec.Windowing
import FecRelay.Draining
import FecRelay.Network

/-!
# The size of datagrams

A block packet and a packet with an original chunk fit `MAX_PACKET_SIZE` by the constants,
and so does an ack. A recovery symbol is longer than the chunks it covers: their length
takes two bytes in front, and the footer takes as many as its counts and its first column
need, which is up to eight bytes where the constants leave room for six.
-/

namespace FecRelay

open FecRelay.Base

/-! ## Recovery symbols -/

theorem Siamese.Windowed.encode_length {S : Siamese} {view : S.Encoder → SiameseEncoder}
    (h : S.Windowed view) {e : S.Encoder} (hsuccess : (S.encode e).1 = .success) :
    (S.encode e).2.1.length =
      (view e).window.encode.1.bytes + footerBytes (view e).window.encode.1.metadata := by
  obtain ⟨-, -, body, row, hbody, hdata⟩ := h.encode e (h.encode_success_iff.mp hsuccess)
  rw [hdata, List.length_append, hbody, serializeFooterRecoveryMetadata_length]
  rfl

namespace ContinuousStreamEncoder

variable {S : Siamese} {view : S.Encoder → SiameseEncoder} {e e' : ContinuousStreamEncoder S}

/-- If a recovery symbol is next, one that is made from running sums fits a stream packet. -/
def RecoveryFits (view : S.Encoder → SiameseEncoder) (e : ContinuousStreamEncoder S) : Prop :=
  e.isNextSymbolFec fecRatio = true → (e.window view).SumsFit maxStreamPacketSize

/-- The same for every symbol that is got in a drain. -/
def DrainFits (view : S.Encoder → SiameseEncoder) : Nat → ContinuousStreamEncoder S → Prop
  | 0, _ => True
  | rounds + 1, e => e.RecoveryFits view ∧
      ∀ symbol e', getSymbol fecRatio e = .ok symbol e' → DrainFits view rounds e'

/-- Every recovery symbol so far fits a stream packet. -/
def EmittedFits (e : ContinuousStreamEncoder S) : Prop :=
  ∀ data ∈ e.encoder.emitted, data.length ≤ maxStreamPacketSize

/-- No chunk that was added is longer than the payload of a block packet. -/
def AddedShort (e : ContinuousStreamEncoder S) : Prop :=
  ∀ chunk ∈ e.encoder.added, chunk.length ≤ maxBlockPacketSize

theorem advances_getSymbol {symbol : Symbol} (hcall : getSymbol fecRatio e = .ok symbol e')
    (hrecorded : e.encoder.Recorded) : e'.encoder.Recorded ∧ e.Advances e' := by
  rcases getSymbol_ok_iff.mp hcall with ⟨-, x, hx, rfl⟩ | ⟨-, rest, x, -, hx, rfl⟩
  · obtain ⟨hsuccess, -, rfl⟩ := StreamFecEncoder.generateFecSymbol_ok_iff.mp hx
    exact ⟨.encode hrecorded hsuccess, List.prefix_refl _, List.prefix_append _ _⟩
  · obtain ⟨hsuccess, -, rfl⟩ := StreamFecEncoder.addChunk_ok_iff.mp hx
    exact ⟨.add hrecorded hsuccess, List.prefix_append _ _, List.prefix_refl _⟩

/-- A recovery packet of short chunks fits exactly if one from running sums does. -/
theorem AddedShort.fits_iff (hlaw : S.Windowed view) (hrecorded : e.encoder.Recorded)
    (hshort : e.AddedShort) (hsuccess : (S.encode e.encoder.encoder).1 = .success) :
    (S.encode e.encoder.encoder).2.1.length ≤ maxStreamPacketSize ↔
      (e.window view).SumsFit maxStreamPacketSize := by
  rw [hlaw.encode_length hsuccess]
  exact (hlaw.bounded (by decide) hrecorded hshort).encode_fits_iff (by decide)

theorem emittedFits_getSymbol (hlaw : S.Windowed view) (hrecorded : e.encoder.Recorded)
    (hshort : e.AddedShort) {symbol : Symbol} (hcall : getSymbol fecRatio e = .ok symbol e') :
    e'.EmittedFits ↔ e.EmittedFits ∧ e.RecoveryFits view := by
  unfold EmittedFits RecoveryFits
  rcases getSymbol_ok_iff.mp hcall with ⟨hfec, x, hx, rfl⟩ | ⟨hfec, rest, x, -, hx, rfl⟩
  · obtain ⟨hsuccess, -, rfl⟩ := StreamFecEncoder.generateFecSymbol_ok_iff.mp hx
    show (∀ data ∈ e.encoder.emitted ++ [(S.encode e.encoder.encoder).2.1], _) ↔ _
    rw [← hshort.fits_iff hlaw hrecorded hsuccess]
    simp [hfec, or_imp, forall_and]
  · obtain ⟨-, -, rfl⟩ := StreamFecEncoder.addChunk_ok_iff.mp hx
    simp [hfec]
    rfl

/-- Without data nothing is got. -/
theorem hasData_of_getSymbol {symbol : Symbol} (hcall : getSymbol fecRatio e = .ok symbol e') :
    e.hasData fecRatio = true := by
  unfold hasData
  rcases getSymbol_ok_iff.mp hcall with ⟨hfec, -⟩ | ⟨-, rest, x, hpending, -⟩
  · simp [hfec]
  · simp [hpending]

/-- What was added before a drain was added after it. -/
theorem advances_drainSymbols : ∀ (rounds : Nat) {e e' : ContinuousStreamEncoder S}
    {symbols : List Symbol}, e.encoder.Recorded →
    drainSymbols fecRatio rounds e = .ok symbols e' → e.Advances e' := by
  intro rounds
  induction rounds with
  | zero => intro e e' symbols _ h; cases h
  | succ rounds ih =>
      intro e e' symbols hrecorded h
      rcases drainSymbols_ok_iff.mp h with ⟨-, -, rfl⟩ | ⟨-, symbol, e₁, rest, hcall, hrest, -⟩
      · exact .refl _
      · obtain ⟨hrecorded₁, hadvances⟩ := advances_getSymbol hcall hrecorded
        exact hadvances.trans (ih hrecorded₁ hrest)

theorem AddedShort.of_advances (h : e'.AddedShort) (hadvances : e.Advances e') : e.AddedShort :=
  fun chunk hchunk => h chunk (hadvances.added.subset hchunk)

theorem emittedFits_drainSymbols (hlaw : S.Windowed view) : ∀ (rounds : Nat)
    {e e' : ContinuousStreamEncoder S} {symbols : List Symbol}, e.encoder.Recorded →
    e'.AddedShort → drainSymbols fecRatio rounds e = .ok symbols e' →
    (e'.EmittedFits ↔ e.EmittedFits ∧ e.DrainFits view rounds) := by
  intro rounds
  induction rounds with
  | zero => intro e e' symbols _ _ h; cases h
  | succ rounds ih =>
      intro e e' symbols hrecorded hshort h
      have hadvances := advances_drainSymbols _ hrecorded h
      rcases drainSymbols_ok_iff.mp h with ⟨hdata, -, rfl⟩ | ⟨-, symbol, e₁, rest, hcall, hrest, -⟩
      · -- nothing is left to be got
        have hfits : e'.DrainFits view (rounds + 1) := by
          refine ⟨fun hfec => ?_, fun symbol e₁ hcall => ?_⟩
          · simp [hasData, hfec] at hdata
          · rw [hasData_of_getSymbol hcall] at hdata
            cases hdata
        exact ⟨fun h => ⟨h, hfits⟩, fun h => h.1⟩
      · obtain ⟨hrecorded₁, -⟩ := advances_getSymbol hcall hrecorded
        rw [ih hrecorded₁ hshort hrest,
          emittedFits_getSymbol hlaw hrecorded (hshort.of_advances hadvances) hcall, and_assoc]
        refine and_congr_right fun _ => and_congr_right fun _ => ⟨fun h symbol' e₂ hcall' => ?_,
          fun h => h symbol e₁ hcall⟩
        cases hcall.symm.trans hcall'
        exact h

end ContinuousStreamEncoder

/-! ## Nodes -/

namespace Node

variable {W : Wirehair} {S : Siamese} {ε : Type} [LinearOrder ε]
  {view : S.Encoder → SiameseEncoder} {n n' : Node W S ε}

/-- The recovery symbols that a stream packet leads to fit, unless the packet is lost. -/
def RelayFits (view : S.Encoder → SiameseEncoder) (around : Surroundings ε) (data : Bytes)
    (n : Node W S ε) : Prop :=
  typeOf data = some .stream → n.packetSeq % loseEvery ≠ 0 →
    ∀ ⦃ack : Bytes⦄ ⦃s : ContinuousStream S⦄,
      relaying around.rounds (data.drop (sizeOfHeader StreamPacketHeader)) (word data 3).toNat
        (n.stream (word data 2)) = .ok ack s →
      s.encoder.DrainFits view around.rounds

/-- The same for whatever happens to a node. -/
def StepFits (view : S.Encoder → SiameseEncoder) (n : Node W S ε) : Event ε → Prop
  | .datagram around data _ => n.RelayFits view around data
  | _ => True

/-- Every recovery symbol of a channel so far fits a stream packet. -/
def EmittedFits (n : Node W S ε) : Prop := ∀ channelId, (n.stream channelId).encoder.EmittedFits

/-- What a handler of a stream packet did was to relay and to drain. -/
theorem StreamHandled.relaying {around : Surroundings ε} {data : Bytes} {h : StreamPacketHeader}
    {payload : Bytes} {d₁ d₂ : ContinuousStreamDecoder S} {s₁ : ContinuousStream S}
    {symbols : List Symbol} {e₁ : ContinuousStreamEncoder S} {acks : List (ε × Bytes)}
    (hhandled : StreamHandled around data n n' h payload d₁ d₂ s₁ symbols e₁ acks) :
    h.channelId = word data 2 ∧ ∃ ack,
      Node.relaying around.rounds (data.drop (sizeOfHeader StreamPacketHeader))
        (word data 3).toNat (n.stream (word data 2)) = .ok ack s₁ := by
  obtain ⟨-, rfl⟩ := Packet.header_ok_iff.mp hhandled.header_ok
  obtain ⟨-, rfl⟩ := Packet.payload_ok_iff.mp hhandled.payload_ok
  obtain ⟨ack, hack⟩ := hhandled.acked
  exact ⟨rfl, ack, relaying_ok_iff.mpr ⟨d₁, d₂, hhandled.processed, hack, hhandled.relayed⟩⟩

theorem StreamHandled.emittedFits (hlaw : S.Windowed view) {around : Surroundings ε}
    {data : Bytes} {h : StreamPacketHeader} {payload : Bytes}
    {d₁ d₂ : ContinuousStreamDecoder S} {s₁ : ContinuousStream S} {symbols : List Symbol}
    {e₁ : ContinuousStreamEncoder S} {acks : List (ε × Bytes)} (htype : typeOf data = some .stream)
    (hhandled : StreamHandled around data n n' h payload d₁ d₂ s₁ symbols e₁ acks)
    (hrecorded : ∀ channelId, (n.stream channelId).encoder.encoder.Recorded)
    (hshort : ∀ channelId, (n'.stream channelId).encoder.AddedShort) :
    n'.EmittedFits ↔ n.EmittedFits ∧ n.RelayFits view around data := by
  obtain ⟨hchannel, ack, hrelaying⟩ := hhandled.relaying
  have hsame := (relayChunks_encoder hhandled.relayed).1
  have hstreams := hhandled.effect.2.2.1
  have hshort₁ := hshort h.channelId
  rw [stream_of_update_self hstreams] at hshort₁
  have hrecorded₁ : s₁.encoder.encoder.Recorded := by
    rw [hsame]
    exact hrecorded h.channelId
  have hdrain :=
    ContinuousStreamEncoder.emittedFits_drainSymbols hlaw _ hrecorded₁ hshort₁ hhandled.drained
  have hrelay : n.RelayFits view around data ↔ s₁.encoder.DrainFits view around.rounds := by
    refine ⟨fun hfits => hfits htype hhandled.survives hrelaying, fun hfits _ _ ack' s h => ?_⟩
    cases hrelaying.symm.trans h
    exact hfits
  have hbefore : s₁.encoder.EmittedFits ↔ (n.stream h.channelId).encoder.EmittedFits := by
    rw [hsame]
    exact Iff.rfl
  rw [hrelay]
  refine forall_iff_of_frame (f := n.stream) (g := n'.stream) (P := fun s => s.encoder.EmittedFits)
    (fun channelId hother => stream_of_update_of_ne hstreams hother) ?_
  rw [stream_of_update_self hstreams, ← hbefore]
  exact hdrain

/-- Only a stream packet leads to recovery symbols. -/
theorem Step.emittedFits_of_other {e : Event ε} (h : Step n e n')
    (hother : ∀ around data peer, e = .datagram around data peer →
      typeOf data ≠ some .stream) : n'.EmittedFits ↔ n.EmittedFits := by
  refine forall_congr' fun channelId => ?_
  rcases step_stream channelId h with hleaves | ⟨around, data, peer, _, _, _, _, _, _, _, _, rfl,
    htype, -, -⟩ | ⟨message, x, hack, hstream, -⟩
  · rw [hleaves.stream_eq]
  · exact absurd htype (hother around data peer rfl)
  · obtain ⟨expects, rfl⟩ := ContinuousStreamEncoder.processAck_ok hack
    rw [hstream]
    exact Iff.rfl

/-- A node's recovery symbols fit after a step exactly if they did before and those of the
step do. -/
theorem Step.emittedFits (hlaw : S.Windowed view) {e : Event ε} (h : Step n e n')
    (hrecorded : ∀ channelId, (n.stream channelId).encoder.encoder.Recorded)
    (hshort : ∀ channelId, (n'.stream channelId).encoder.AddedShort) :
    n'.EmittedFits ↔ n.EmittedFits ∧ n.StepFits view e := by
  cases e with
  | timerExpires channelId peer now =>
      exact (h.emittedFits_of_other (fun _ _ _ heq => by cases heq)).trans
        (and_iff_left trivial).symm
  | waitAborted channelId peer =>
      exact (h.emittedFits_of_other (fun _ _ _ heq => by cases heq)).trans
        (and_iff_left trivial).symm
  | datagram around data peer =>
      by_cases hstream : typeOf data = some .stream
      · obtain ⟨t, htype, hcall⟩ := handlerOf_ok h.result
        cases htype.symm.trans hstream
        rcases handleStream_ok hcall with ⟨-, rfl, hlost⟩ |
          ⟨hd, payload, d₁, d₂, s₁, symbols, e₁, acks, hhandled⟩
        · have hfits : n.StepFits view (.datagram around data peer) :=
            fun _ hlose => absurd hlost hlose
          exact (and_iff_left hfits).symm
        · exact hhandled.emittedFits hlaw hstream hrecorded hshort
      · have hfits : n.StepFits view (.datagram around data peer) :=
          fun htype => absurd htype hstream
        refine (h.emittedFits_of_other fun _ _ _ heq => ?_).trans (and_iff_left hfits).symm
        cases heq
        exact hstream

/-! ### What else a node builds -/

/-- An ack that was sent since fits. -/
def AcksGrow (n n' : Node W S ε) : Prop :=
  ∀ x ∈ n'.sentAcks, x ∈ n.sentAcks ∨ x.2.length ≤ maxPacketSize

theorem acksGrow_of_eq (h : n'.sentAcks = n.sentAcks) : AcksGrow n n' := by
  intro x hx
  rw [h] at hx
  exact Or.inl hx

theorem acksGrow_trans ⦃n₁ n₂ n₃ : Node W S ε⦄ (h : AcksGrow n₁ n₂) (h' : AcksGrow n₂ n₃) :
    AcksGrow n₁ n₃ := by
  intro x hx
  rcases h' x hx with hx | hsize
  · exact h x hx
  · exact Or.inr hsize

theorem acksGrow_bind {α β : Type} {m : Method Fault (Node W S ε) α}
    {f : α → Method Fault (Node W S ε) β} (hm : Method.Keeps AcksGrow m)
    (hf : ∀ a, Method.Keeps AcksGrow (f a)) : Method.Keeps AcksGrow (m >>= f) :=
  hm.bind acksGrow_trans hf

theorem acksGrow_lift {α β : Type} (x : Checked α) {f : α → Method Fault (Node W S ε) β}
    (hf : ∀ a, Method.Keeps AcksGrow (f a)) : Method.Keeps AcksGrow (Method.lift x >>= f) :=
  acksGrow_bind (.lift (fun _ => acksGrow_of_eq rfl) x) hf

theorem acksGrow_onStream {α : Type} (channelId : UInt32)
    (m : Method Fault (ContinuousStream S) α) :
    Method.Keeps AcksGrow (onStream channelId m : Method Fault (Node W S ε) α) := by
  apply Method.Keeps.zoom
  exact fun _ _ => acksGrow_of_eq rfl

theorem acksGrow_queueToAll (around : Surroundings ε) (channelId : UInt32)
    (packets : List Bytes) :
    Method.Keeps AcksGrow (queueToAll around channelId packets : Method Fault (Node W S ε) Unit) := by
  apply Method.Keeps.zoom
  exact fun _ _ => acksGrow_of_eq rfl

theorem acksGrow_nextIsLost :
    Method.Keeps AcksGrow (nextIsLost : Method Fault (Node W S ε) Bool) := by
  intro n n' lost h
  obtain ⟨-, -, rfl⟩ := nextIsLost_ok_iff.mp h
  exact acksGrow_of_eq rfl

theorem acksGrow_pure {α : Type} (a : α) :
    Method.Keeps AcksGrow (pure a : Method Fault (Node W S ε) α) :=
  .pure (fun _ => acksGrow_of_eq rfl) a

theorem acksGrow_handleControl (data : Bytes) (peer : ε) :
    Method.Keeps AcksGrow (handleControl data peer : Method Fault (Node W S ε) Unit) := by
  refine acksGrow_lift _ fun action => .ite ?_ (acksGrow_pure ())
  refine acksGrow_lift _ fun channelId => acksGrow_lift _ fun kbps => .modify fun n => ?_
  exact acksGrow_of_eq rfl

theorem acksGrow_handleBlock (around : Surroundings ε) (data : Bytes) :
    Method.Keeps AcksGrow (handleBlock around data : Method Fault (Node W S ε) Unit) := by
  refine acksGrow_lift _ fun h => acksGrow_bind acksGrow_nextIsLost fun lost => ?_
  refine .ite (acksGrow_pure ()) ?_
  refine acksGrow_bind ?_ fun block => acksGrow_lift _ fun payload => ?_
  · intro n n' block hemplace
    obtain ⟨-, rfl⟩ := emplaceBlock_ok hemplace
    exact acksGrow_of_eq rfl
  refine acksGrow_bind ?_ fun result => acksGrow_lift _ fun generated => acksGrow_queueToAll _ _ _
  apply Method.Keeps.zoom
  exact fun _ _ => acksGrow_of_eq rfl

theorem acksGrow_relayOn (around : Surroundings ε) (channelId : UInt32) :
    Method.Keeps AcksGrow (relayOn around channelId : Method Fault (Node W S ε) Unit) := by
  refine acksGrow_bind (acksGrow_onStream _ _) fun _ => ?_
  refine acksGrow_bind (acksGrow_onStream _ _) fun symbols => ?_
  exact .ite (acksGrow_queueToAll _ _ _) (acksGrow_pure ())

theorem acksGrow_handleStream (hacks : S.AcksWithin) (around : Surroundings ε) (data : Bytes)
    (peer : ε) :
    Method.Keeps AcksGrow (handleStream around data peer : Method Fault (Node W S ε) Unit) := by
  rw [handleStream_eq]
  refine acksGrow_lift _ fun h => acksGrow_bind acksGrow_nextIsLost fun lost => ?_
  refine .ite (acksGrow_pure ()) (acksGrow_lift _ fun payload => ?_)
  refine acksGrow_bind (acksGrow_onStream _ _) fun _ => ?_
  refine (acksGrow_onStream _ _).bind_of acksGrow_trans fun ack n n' hack => ?_
  have hsize : ack.length ≤ maxBlockPacketSize := by
    obtain ⟨s, hs, -⟩ := onStream_ok hack
    obtain ⟨d, hd, -⟩ := Method.zoom_ok_iff.mp hs
    unfold ContinuousStreamDecoder.generateAck at hd
    obtain ⟨x, hx, -⟩ := Method.zoom_ok_iff.mp hd
    obtain ⟨hsuccess, rfl, -⟩ := StreamFecDecoder.generateAck_ok_iff.mp hx
    exact hacks _ _ (by decide) hsuccess
  refine .ite (acksGrow_bind ?_ fun _ => acksGrow_relayOn _ _) (acksGrow_relayOn _ _)
  refine .modify fun n x hx => ?_
  rcases List.mem_append.mp hx with hx | hx
  · exact Or.inl hx
  · rw [List.mem_singleton.mp hx]
    refine Or.inr ?_
    unfold Packet.makeStreamAck
    rw [Packet.ofHeader_length]
    refine le_trans (Nat.add_le_add_left hsize _) ?_
    decide

theorem Step.acksGrow (hacks : S.AcksWithin) {e : Event ε} (h : Step n e n') :
    AcksGrow n n' := by
  have hresult := h.result
  have hreceiver : ∀ {channelId : UInt32} {peer : ε} {m : Method Fault AsioReceiver Unit},
      onReceiver channelId peer m n = .ok () n' → AcksGrow n n' := by
    intro channelId peer m hcall
    rcases onReceiver_ok hcall with ⟨-, rfl⟩ | ⟨r, r', -, -, rfl⟩
    · exact acksGrow_of_eq rfl
    · exact acksGrow_of_eq rfl
  cases e with
  | timerExpires channelId peer now => exact hreceiver hresult
  | waitAborted channelId peer => exact hreceiver hresult
  | datagram around data peer =>
      rcases handlePacket_ok hresult with ⟨-, hcall⟩ | ⟨-, hcall⟩ | ⟨-, hcall⟩ | ⟨-, hcall⟩
      · exact acksGrow_handleControl data peer hcall
      · exact acksGrow_handleBlock around data hcall
      · exact acksGrow_handleStream hacks around data peer hcall
      · obtain ⟨hd, payload, e₁, -, -, -, rfl⟩ := handleStreamAck_ok hcall
        exact acksGrow_of_eq rfl

/-- What is queued and is no stream packet fits, or it is a block packet that arrived. -/
theorem Step.queued_other (hencodes : W.EncodesWithin) {e : Event ε} (h : Step n e n')
    {channelId : UInt32} {peer : ε} {packet : Bytes}
    (hpacket : packet ∈ n'.queuedTo channelId peer) (hother : typeOf packet ≠ some .stream) :
    packet ∈ n.queuedTo channelId peer ∨ packet.length ≤ maxPacketSize ∨
      ∃ around source, e = .datagram around packet source ∧ typeOf packet = some .block := by
  rcases step_cases h with hquiet | ⟨around, data, source, rfl, hcases⟩
  · rw [hquiet.queued] at hpacket
    exact Or.inl hpacket
  rcases hcases with ⟨htype, hd, payload, block, decoded, block', generated, hhandled⟩ |
    ⟨htype, hd, payload, d₁, d₂, s₁, symbols, e₁, acks, hhandled⟩ | ⟨-, hack⟩
  · rcases hhandled.effect.2.2.2.mem_queuedTo hpacket with hold | hnew
    · exact Or.inl hold
    rcases List.mem_cons.mp hnew with rfl | hgenerated
    · exact Or.inr (Or.inr ⟨around, source, rfl, htype⟩)
    · have hrange := hhandled.generated_ok
      unfold generate at hrange
      split at hrange
      · exact Or.inr (Or.inl (blockPacketRange_length hencodes hrange packet hgenerated))
      · cases hrange
        cases hgenerated
  · rcases hhandled.effect.2.2.2.2 channelId peer with hsame | ⟨-, hmore⟩
    · exact Or.inl (hsame ▸ hpacket)
    · rw [hmore] at hpacket
      rcases List.mem_append.mp hpacket with hpacket | hpacket
      · exact Or.inl hpacket
      · obtain ⟨symbol, -, rfl⟩ := List.mem_map.mp hpacket
        exact absurd (typeOf_makeStream _ _ _) hother
  · obtain ⟨hd, payload, e₁, -, -, -, rfl⟩ := handleStreamAck_ok hack
    exact Or.inl hpacket

end Node

/-! ## Networks -/

namespace Network

variable {W : Wirehair} {S : Siamese} {ε : Type} [LinearOrder ε]
  {view : S.Encoder → SiameseEncoder} {w w' : Network W S ε}

/-- No datagram that was built is longer than a packet may be: none with a symbol of an
encoder, none that a publisher sent, and none that a node queued or sent as an ack. -/
structure Fits (w : Network W S ε) : Prop where
  built : ∀ channelId k, ∀ data ∈ ((w.chain channelId).source channelId k).encoder.added ++
    ((w.chain channelId).source channelId k).encoder.emitted, ∀ packetIndex,
      (Packet.makeStream data channelId packetIndex).length ≤ maxPacketSize
  sent : ∀ channelId, ∀ data ∈ w.sent channelId, data.length ≤ maxPacketSize
  sentBlocks : ∀ data ∈ w.sentBlocks, data.length ≤ maxPacketSize
  queued : ∀ k channelId peer, ∀ data ∈ (w.node k).queuedTo channelId peer,
    data.length ≤ maxPacketSize
  sentAcks : ∀ k, ∀ x ∈ (w.node k).sentAcks, x.2.length ≤ maxPacketSize

/-- The recovery symbols of an event fit: that of a symbol which a publisher sends, and those
that a packet leads to at a node. -/
def Fitting (view : S.Encoder → SiameseEncoder) (w : Network W S ε) : Event W ε → Prop
  | .atPublisher channelId .send => (w.publisher channelId).RecoveryFits view
  | .atNode k e => (w.node k).StepFits view e
  | _ => True

/-- Every recovery symbol so far fits a stream packet. -/
structure EmittedFits (w : Network W S ε) : Prop where
  publisher : ∀ channelId, (w.publisher channelId).EmittedFits
  node : ∀ k, (w.node k).EmittedFits

/-- What is no stream packet fits. -/
structure OthersFit (w : Network W S ε) : Prop where
  sent : ∀ channelId, ∀ data ∈ w.sent channelId, Node.typeOf data = some .stream
  sentBlocks : ∀ data ∈ w.sentBlocks, data.length ≤ maxPacketSize
  queued : ∀ k channelId peer, ∀ data ∈ (w.node k).queuedTo channelId peer,
    Node.typeOf data ≠ some .stream → data.length ≤ maxPacketSize
  sentAcks : ∀ k, ∀ x ∈ (w.node k).sentAcks, x.2.length ≤ maxPacketSize

/-- No more chunks were published than there are packet numbers, and each was short. -/
structure ShortStreams (w : Network W S ε) : Prop where
  count : ∀ channelId, (w.published channelId).length < siamesePacketNumCount
  chunks : ∀ channelId, ∀ chunk ∈ w.published channelId, chunk.length ≤ maxBlockPacketSize

/-! ### What is no stream packet -/

theorem othersFit_init : ({} : Network W S ε).OthersFit where
  sent _ _ hdata := absurd hdata List.not_mem_nil
  sentBlocks _ hdata := absurd hdata List.not_mem_nil
  queued _ _ _ _ hdata := absurd hdata List.not_mem_nil
  sentAcks _ _ hx := absurd hx List.not_mem_nil

/-- A block packet on its way fits. -/
theorem OthersFit.inFlight (h : w.OthersFit) {k : Nat} {data : Bytes} (hdata : w.InFlight k data)
    (hother : Node.typeOf data ≠ some .stream) : data.length ≤ maxPacketSize := by
  cases k with
  | zero =>
      rcases hdata with ⟨channelId, hsent⟩ | hblock
      · exact absurd (h.sent channelId data hsent) hother
      · exact h.sentBlocks data hblock
  | succ k =>
      obtain ⟨channelId, peer, hqueued⟩ := hdata
      exact h.queued k channelId peer data hqueued hother

/-- What is sent are stream packets. -/
theorem sent_of_step {channelId : UInt32} {e : Chain.Event ε} {c c' : Chain W S ε}
    (h : Chain.Step channelId c e c') :
    ∀ data ∈ c'.sent, data ∈ c.sent ∨ Node.typeOf data = some .stream := by
  intro data hdata
  rcases Chain.step_cases h with ⟨chunk, rfl⟩ | ⟨symbol, x, -, rfl⟩ | ⟨message, x, -, rfl⟩ |
    ⟨k, e, n, -, rfl, -⟩
  · exact Or.inl hdata
  · rcases List.mem_append.mp hdata with hdata | hdata
    · exact Or.inl hdata
    · rw [List.mem_singleton.mp hdata]
      exact Or.inr (Node.typeOf_makeStream _ _ _)
  all_goals exact Or.inl hdata

theorem OthersFit.step (hacks : S.AcksWithin) (hencodes : W.EncodesWithin) {e : Event W ε}
    (h : w.OthersFit) (hstep : Step w e w') : w'.OthersFit := by
  cases hstep with
  | @atPublisher c channelId e he hchain =>
      refine ⟨fun other data hdata => ?_, h.sentBlocks, h.queued, h.sentAcks⟩
      by_cases hother : other = channelId
      · subst hother
        have hdata : data ∈ Function.update w.sent other c.sent other := hdata
        rw [Function.update_self] at hdata
        rcases sent_of_step hchain data hdata with hold | hnew
        · exact h.sent other data hold
        · exact hnew
      · have hdata : data ∈ Function.update w.sent channelId c.sent other := hdata
        rw [Function.update_of_ne hother] at hdata
        exact h.sent other data hdata
  | sendBlock hpackets =>
      refine ⟨h.sent, fun data hdata => ?_, h.queued, h.sentAcks⟩
      rcases List.mem_append.mp hdata with hdata | hdata
      · exact h.sentBlocks data hdata
      · exact blockPacketRange_length hencodes hpackets data hdata
  | @atNode k e n hnode harrives =>
      have hnodes : ∀ j, (w.withNode k n).node j = if j = k then n else w.node j := by
        intro j
        show Function.update w.node k n j = _
        rw [Function.update_apply]
      refine ⟨h.sent, h.sentBlocks, fun j channelId peer data hdata hother => ?_, fun j x hx => ?_⟩
      · rw [hnodes] at hdata
        by_cases hj : j = k
        · rw [if_pos hj] at hdata
          rcases hnode.queued_other hencodes hdata hother with hold | hsize |
            ⟨around, source, rfl, hblock⟩
          · exact h.queued k channelId peer data hold hother
          · exact hsize
          · exact h.inFlight (harrives around data source rfl (Or.inr hblock)) hother
        · rw [if_neg hj] at hdata
          exact h.queued j channelId peer data hdata hother
      · rw [hnodes] at hx
        by_cases hj : j = k
        · rw [if_pos hj] at hx
          rcases hnode.acksGrow hacks x hx with hold | hsize
          · exact h.sentAcks k x hold
          · exact hsize
        · rw [if_neg hj] at hx
          exact h.sentAcks j x hx

/-! ### Recovery symbols -/

theorem emittedFits_init : ({} : Network W S ε).EmittedFits where
  publisher _ _ hdata := absurd hdata List.not_mem_nil
  node _ _ _ hdata := absurd hdata List.not_mem_nil

/-- The chunks that an encoder has added were published. -/
theorem ShortStreams.addedShort (h : w.ShortStreams) (hintact : w.Intact) (channelId : UInt32)
    (k : Nat) : ((w.chain channelId).source channelId k).AddedShort := by
  intro chunk hchunk
  have hpublished := Chain.Intact.added_prefix (hintact.chain channelId) k
  exact h.chunks channelId chunk (hpublished.subset hchunk)

theorem emittedFits_of_atPublisher (hlaw : S.Windowed view) {channelId : UInt32}
    {e : Chain.Event ε} {c c' : Chain W S ε} (he : e.AtPublisher)
    (h : Chain.Step channelId c e c') (hrecorded : c.publisher.encoder.Recorded)
    (hshort : c'.publisher.AddedShort) : c'.publisher.EmittedFits ↔
      c.publisher.EmittedFits ∧ (e = .send → c.publisher.RecoveryFits view) := by
  have hresult := h.result
  cases e with
  | publish chunk =>
      cases hresult
      exact (and_iff_left fun heq => by cases heq).symm
  | send =>
      obtain ⟨symbol, c₁, hsymbol, hsend⟩ := Method.bind_ok_iff.mp hresult
      obtain ⟨x, hget, rfl⟩ := Method.zoom_ok_iff.mp hsymbol
      cases hsend
      have hadvances := (ContinuousStreamEncoder.advances_getSymbol hget hrecorded).2
      have hbefore := ContinuousStreamEncoder.AddedShort.of_advances hshort hadvances
      simpa using ContinuousStreamEncoder.emittedFits_getSymbol hlaw hrecorded hbefore hget
  | ack message =>
      unfold Chain.Event.call Chain.onPublisher at hresult
      obtain ⟨x, hack, rfl⟩ := Method.zoom_ok_iff.mp hresult
      obtain ⟨expects, rfl⟩ := ContinuousStreamEncoder.processAck_ok hack
      exact (and_iff_left fun heq => by cases heq).symm
  | atNode k e => exact he.elim

/-- The recovery symbols fit after a step exactly if they did before and those of the step
do. -/
theorem Step.emittedFits (hlaw : S.Windowed view) {e : Event W ε} (hintact : w.Intact)
    (hintact' : w'.Intact) (hshort : w'.ShortStreams) (hstep : Step w e w') :
    w'.EmittedFits ↔ w.EmittedFits ∧ w.Fitting view e := by
  have hadded := hshort.addedShort hintact'
  cases hstep with
  | @atPublisher c channelId e he hchain =>
      have hself : (w.withChain channelId c).publisher channelId = c.publisher :=
        Function.update_self _ _ _
      have hadded₀ : c.publisher.AddedShort := hself ▸ hadded channelId 0
      have hpublisher := emittedFits_of_atPublisher hlaw he hchain
        ((hintact.chain channelId).recorded 0) hadded₀
      have hfitting : w.Fitting view (.atPublisher channelId e) ↔
          (e = .send → (w.publisher channelId).RecoveryFits view) := by
        cases e <;> simp [Fitting]
      have hpublishers : (∀ other, ((w.withChain channelId c).publisher other).EmittedFits) ↔
          (∀ other, (w.publisher other).EmittedFits) ∧
            w.Fitting view (.atPublisher channelId e) := by
        refine forall_iff_of_frame (fun other hne => Function.update_of_ne hne _ _) ?_
        rw [hself, hfitting]
        exact hpublisher
      exact ⟨fun h => ⟨⟨(hpublishers.mp h.publisher).1, h.node⟩, (hpublishers.mp h.publisher).2⟩,
        fun h => ⟨hpublishers.mpr ⟨h.1.publisher, h.2⟩, h.1.node⟩⟩
  | sendBlock hpackets =>
      refine ⟨fun h => ⟨⟨h.publisher, h.node⟩, trivial⟩, fun h => ⟨h.1.publisher, h.1.node⟩⟩
  | @atNode k e n hnode harrives =>
      have hself : (w.withNode k n).node k = n := Function.update_self _ _ _
      have hnodes : (∀ j, ((w.withNode k n).node j).EmittedFits) ↔
          (∀ j, (w.node j).EmittedFits) ∧ w.Fitting view (.atNode k e) := by
        refine forall_iff_of_frame (fun j hne => Function.update_of_ne hne _ _) ?_
        rw [hself]
        exact hnode.emittedFits hlaw
          (fun channelId => (hintact.chain channelId).recorded (k + 1))
          (fun channelId => hself ▸ hadded channelId (k + 1))
      exact ⟨fun h => ⟨⟨h.publisher, (hnodes.mp h.node).1⟩, (hnodes.mp h.node).2⟩,
        fun h => ⟨h.1.publisher, hnodes.mpr ⟨h.1.node, h.2⟩⟩⟩

/-! ### Datagrams -/

theorem makeStream_length (data : Bytes) (channelId packetIndex : UInt32) :
    (Packet.makeStream data channelId packetIndex).length =
      sizeOfHeader StreamPacketHeader + data.length := by
  unfold Packet.makeStream
  rw [Packet.ofHeader_length]

/-- A stream packet fits exactly if its symbol does. -/
theorem makeStream_fits_iff {data : Bytes} {channelId packetIndex : UInt32} :
    (Packet.makeStream data channelId packetIndex).length ≤ maxPacketSize ↔
      data.length ≤ maxStreamPacketSize := by
  have hsize : maxPacketSize = sizeOfHeader StreamPacketHeader + maxStreamPacketSize := by decide
  rw [makeStream_length, hsize, Nat.add_le_add_iff_left]

/-- All datagrams fit exactly if all recovery symbols do. -/
theorem Intact.fits_iff (h : w.Intact) (hshort : w.ShortStreams) (hothers : w.OthersFit) :
    w.Fits ↔ w.EmittedFits := by
  have hadded : ∀ channelId k, ∀ data ∈ ((w.chain channelId).source channelId k).encoder.added,
      data.length ≤ maxStreamPacketSize := by
    intro channelId k data hdata
    refine (hshort.addedShort h channelId k data hdata).trans ?_
    decide
  constructor
  · intro hfits
    have hemitted : ∀ channelId k, ((w.chain channelId).source channelId k).EmittedFits :=
      fun channelId k data hdata => makeStream_fits_iff.mp
        (hfits.built channelId k data (List.mem_append_right _ hdata) 0)
    exact ⟨fun channelId => hemitted channelId 0, fun k channelId => hemitted channelId (k + 1)⟩
  · intro hfits
    have hemitted : ∀ channelId k, ((w.chain channelId).source channelId k).EmittedFits := by
      intro channelId k
      cases k with
      | zero => exact hfits.publisher channelId
      | succ k => exact hfits.node k channelId
    have hbuilt : ∀ channelId k, ∀ data ∈ ((w.chain channelId).source channelId k).encoder.added ++
        ((w.chain channelId).source channelId k).encoder.emitted,
        data.length ≤ maxStreamPacketSize := by
      intro channelId k data hdata
      rcases List.mem_append.mp hdata with hdata | hdata
      · exact hadded channelId k data hdata
      · exact hemitted channelId k data hdata
    have hgenuine : ∀ channelId k data, Genuine channelId
        ((w.chain channelId).source channelId k).encoder.added
        ((w.chain channelId).source channelId k).encoder.emitted data →
        Node.typeOf data = some .stream → data.length ≤ maxPacketSize := by
      intro channelId k data hdata htype
      obtain ⟨symbol, rfl, hcarries⟩ := hdata htype
      refine makeStream_fits_iff.mpr (hbuilt channelId k symbol.1 ?_)
      unfold Carries at hcarries
      split at hcarries
      · exact List.mem_append_right _ hcarries
      · exact List.mem_append_left _ (List.mem_of_getElem? hcarries)
    refine ⟨fun channelId k data hdata packetIndex => ?_, fun channelId data hdata => ?_,
      hothers.sentBlocks, fun k channelId peer data hdata => ?_, hothers.sentAcks⟩
    · exact makeStream_fits_iff.mpr (hbuilt channelId k data hdata)
    · exact hgenuine channelId 0 data ((h.chain channelId).sent data hdata)
        (hothers.sent channelId data hdata)
    · by_cases htype : Node.typeOf data = some .stream
      · exact hgenuine channelId (k + 1) data
          (((h.chain channelId).hop k).queued peer data hdata) htype
      · exact hothers.queued k channelId peer data hdata htype

theorem Step.shortStreams {e : Event W ε} (hstep : Step w e w') (h : w'.ShortStreams) :
    w.ShortStreams := by
  have hgrows := hstep.published_prefix
  refine ⟨fun channelId => ?_, fun channelId chunk hchunk => ?_⟩
  · exact lt_of_le_of_lt (hgrows channelId).length_le (h.count channelId)
  · exact h.chunks channelId chunk ((hgrows channelId).subset hchunk)

/-! ### Runs of a publisher

One chunk of a byte, and 258 chunks of which the last 130 are unacknowledged when recovery
symbols are made of them. -/

theorem step_publisher {channelId : UInt32} {e : Chain.Event ε} {c : Chain W S ε}
    (he : e.AtPublisher) (hcall : e.call channelId (w.chain channelId) = .ok () c) :
    Step w (.atPublisher channelId e) (w.withChain channelId c) ∧
      (w.withChain channelId c).chain channelId = c := by
  have henabled : e.Enabled channelId (w.chain channelId) := by
    cases e with
    | atNode k e => exact he.elim
    | _ => trivial
  have hstep : Chain.Step channelId (w.chain channelId) e c := ⟨henabled, hcall⟩
  exact ⟨.atPublisher he hstep, chain_withChain_self w channelId (node_of_atPublisher he hstep)⟩

/-- What happens to a publisher, one event after the other, happens to the network. -/
theorem exists_run_of_publisher {channelId : UInt32} {events : List (Chain.Event ε)}
    {w : Network W S ε} {c' : Chain W S ε} (hevents : ∀ e ∈ events, e.AtPublisher)
    (hcalls : Method.forEach (Chain.Event.call channelId) events (w.chain channelId) = .ok () c') :
    ∃ w', Run Step w (events.map (.atPublisher channelId)) w' ∧ w'.chain channelId = c' ∧
      ∀ other, other ≠ channelId → w'.published other = w.published other := by
  induction events generalizing w with
  | nil =>
      cases hcalls
      exact ⟨w, .nil w, rfl, fun _ _ => rfl⟩
  | cons e events ih =>
      obtain ⟨_, c₁, hcall, hrest⟩ := Method.bind_ok_iff.mp hcalls
      obtain ⟨hstep, hchain⟩ := step_publisher (hevents e List.mem_cons_self) hcall
      rw [← hchain] at hrest
      obtain ⟨w', hrun, hsame, hothers⟩ :=
        ih (fun x hx => hevents x (List.mem_cons_of_mem _ hx)) hrest
      refine ⟨w', .cons hstep hrun, hsame, fun other hne => ?_⟩
      rw [hothers other hne]
      exact Function.update_of_ne hne _ _

/-- A network in which one channel has published. -/
theorem shortStreams_of_chain {channelId : UInt32} {c : Chain W S ε}
    (hchain : w.chain channelId = c) (hothers : ∀ other, other ≠ channelId → w.published other = [])
    (hcount : c.published.length < siamesePacketNumCount)
    (hchunks : ∀ chunk ∈ c.published, chunk.length ≤ maxBlockPacketSize) : w.ShortStreams := by
  subst hchain
  constructor
  · intro other
    by_cases hne : other = channelId
    · rw [hne]
      exact hcount
    · rw [hothers other hne]
      decide
  · intro other chunk hchunk
    by_cases hne : other = channelId
    · rw [hne] at hchunk
      exact hchunks chunk hchunk
    · rw [hothers other hne] at hchunk
      cases hchunk

/-- The network once a chunk was published on channel 1. -/
def onePublished : Network replicatingWithin windowing Nat :=
  Network.withChain {} 1 { publisher := { pending := [[5]] }, published := [[5]] }

/-- The network once the chunk was sent. -/
def oneSent : Network replicatingWithin windowing Nat :=
  onePublished.withChain 1 (Method.after (Chain.Event.call 1 .send (onePublished.chain 1)))

/-- After 128 chunks are acknowledged, another 130 are published, the last of them as long as
chunks are at most. -/
def longEvents : List (Chain.Event Nat) :=
  List.replicate 128 (.publish [0]) ++ List.replicate 179 .send ++
    [.ack (serializeHeaderPacketNum 128)] ++ List.replicate 129 (.publish [0]) ++
    [.publish (List.replicate maxBlockPacketSize 0)] ++ List.replicate 182 .send

/-- What the events come to. -/
def longSent : Chain replicatingWithin windowing Nat :=
  Method.after (Method.forEach (Chain.Event.call 1) longEvents {})

set_option maxRecDepth 100000 in
theorem longSent_spec :
    Method.forEach (Chain.Event.call 1) longEvents {} = .ok () longSent ∧
      (∃ data ∈ longSent.sent, data.length = maxPacketSize + 1) ∧
      longSent.published.length < siamesePacketNumCount ∧
      ∀ chunk ∈ longSent.published, chunk.length ≤ maxBlockPacketSize := by
  have hspec : Method.returned (Method.forEach (Chain.Event.call 1) longEvents
      ({} : Chain replicatingWithin windowing Nat)) = some () ∧
      (∃ data ∈ longSent.sent, data.length = maxPacketSize + 1) ∧
      longSent.published.length < siamesePacketNumCount ∧
      ∀ chunk ∈ longSent.published, chunk.length ≤ maxBlockPacketSize := by
    decide +kernel
  exact ⟨Method.eq_ok_of_returned hspec.1, hspec.2⟩

/-- The network comes to it, with a packet that is too long. -/
theorem exists_longSent : ∃ es, ∃ w : Network replicatingWithin windowing Nat, Run Step {} es w ∧
    w.ShortStreams ∧ ∃ data ∈ w.sent 1, data.length = maxPacketSize + 1 := by
  obtain ⟨hcalls, ⟨data, hdata, hsize⟩, hcount, hchunks⟩ := longSent_spec
  have hevents : ∀ e ∈ longEvents, e.AtPublisher := by
    intro e he
    simp only [longEvents, List.mem_append, List.mem_singleton, or_assoc] at he
    rcases he with he | he | rfl | he | rfl | he
    · rw [List.eq_of_mem_replicate he]
      trivial
    · rw [List.eq_of_mem_replicate he]
      trivial
    · trivial
    · rw [List.eq_of_mem_replicate he]
      trivial
    · trivial
    · rw [List.eq_of_mem_replicate he]
      trivial
  obtain ⟨w, hrun, hchain, hothers⟩ :=
    @exists_run_of_publisher _ _ _ _ 1 longEvents {} _ hevents hcalls
  have hshort := shortStreams_of_chain hchain (fun other hne => hothers other hne) hcount hchunks
  rw [← hchain] at hdata
  exact ⟨_, w, hrun, hshort, data, hdata, hsize⟩

/-- **The datagrams of a run fit exactly if its recovery symbols do.** In every run in which
each published chunk is as long as a block packet's payload at most, and fewer are published
than there are packet numbers, no datagram is longer than `MAX_PACKET_SIZE` exactly if
every recovery packet that was made from running sums fitted a stream packet, its counts and
its first column included. -/
theorem datagrams_fit_iff (hlaw : S.Windowed view) (hrecovers : S.Recovers)
    (hacks : S.AcksWithin) (hencodes : W.EncodesWithin) {es : List (Event W ε)}
    (hrun : Run Step {} es w)
    (hcount : ∀ channelId, (w.published channelId).length < siamesePacketNumCount)
    (hchunks : ∀ channelId, ∀ chunk ∈ w.published channelId, chunk.length ≤ maxBlockPacketSize) :
    w.Fits ↔ Run (fun w e w' => Step w e w' ∧ w.Fitting view e) {} es w := by
  have hshort : w.ShortStreams := ⟨hcount, hchunks⟩
  have hintact : ∀ {es w}, Run Step ({} : Network W S ε) es w → w.ShortStreams → w.Intact :=
    fun hrun hshort => intact_of_run hlaw.numbers hrecovers hrun hshort.count
  have hothers : w.OthersFit :=
    Run.invariant (I := fun w : Network W S ε => w.OthersFit)
      (fun _ _ _ hw hstep => hw.step hacks hencodes hstep) hrun othersFit_init
  rw [(hintact hrun hshort).fits_iff hshort hothers]
  refine Run.guarded_iff (J := fun w : Network W S ε => w.ShortStreams)
    (fun es s e t hbefore hstep ht => ?_) emittedFits_init hrun hshort
  have hs := hstep.shortStreams ht
  exact ⟨hs, hstep.emittedFits hlaw (hintact hbefore hs) (hintact (.snoc hbefore hstep) ht) ht⟩

/-- The chunk alone fits, and some recovery symbol of the long run does not. -/
theorem datagrams_fit_iff_one_and_long :
    (oneSent.sent 1 = [Packet.makeStream [5] 1 0] ∧ oneSent.Fits) ∧
    ∃ es, ∃ w : Network replicatingWithin windowing Nat, Run Step {} es w ∧
      ¬Run (fun w e w' => Step w e w' ∧ w.Fitting id e) {} es w := by
  have hpublish : Step {} (.atPublisher 1 (.publish [5])) onePublished :=
    (@step_publisher _ _ _ _ {} 1 (.publish [5]) _ trivial rfl).1
  have hreturned : Method.returned (Chain.Event.call 1 .send (onePublished.chain 1)) =
      some () := by
    decide +kernel
  have hsend : Step onePublished (.atPublisher 1 .send) oneSent :=
    (@step_publisher _ _ _ _ onePublished 1 .send _ trivial
      (Method.eq_ok_of_returned hreturned)).1
  have hothers : ∀ other, other ≠ 1 → oneSent.published other = [] := by
    intro other hne
    unfold oneSent onePublished withChain
    simp [hne]
  have hshort := shortStreams_of_chain (rfl : oneSent.chain 1 = _) hothers (by decide +kernel)
    (by decide +kernel)
  constructor
  · refine ⟨by decide +kernel, ?_⟩
    refine (datagrams_fit_iff Windowing.windowed Windowing.recovers Windowing.acksWithin
      encodesWithin_replicatingWithin ((Run.single hpublish).snoc hsend) hshort.count
      hshort.chunks).mpr ?_
    -- the symbol that is sent is the chunk
    refine (Run.single ⟨hpublish, trivial⟩).snoc ⟨hsend, fun hfec => ?_⟩
    exact absurd hfec (by decide +kernel)
  · obtain ⟨es, w, hrun, hlong, data, hdata, hsize⟩ := exists_longSent
    refine ⟨es, w, hrun, fun hfitting => ?_⟩
    have hfits := (datagrams_fit_iff Windowing.windowed Windowing.recovers Windowing.acksWithin
      encodesWithin_replicatingWithin hrun hlong.count hlong.chunks).mpr hfitting
    have hle := hfits.sent 1 data hdata
    omega

/-- A recovery symbol of the 130 chunks makes a packet of 1401 bytes. -/
theorem recovery_packet_too_long : ¬∀ ⦃es : List (Event replicatingWithin Nat)⦄
    ⦃w : Network replicatingWithin windowing Nat⦄, Run Step {} es w →
    (∀ channelId, (w.published channelId).length < siamesePacketNumCount) →
    (∀ channelId, ∀ chunk ∈ w.published channelId, chunk.length ≤ maxBlockPacketSize) →
    w.Fits := by
  intro hclaim
  obtain ⟨es, w, hrun, hshort, data, hdata, hsize⟩ := exists_longSent
  have hfits := (hclaim hrun hshort.count hshort.chunks).sent 1 data hdata
  omega

end Network

end FecRelay
