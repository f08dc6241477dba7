import FecRelay.Codec.Siamese
import FecRelay.Codec.Wirehair

/-!
# Forward error correction for blocks and streams

We start out with either a block, a certain number of bytes, or a stream, an
indefinite sequence of them. Either is split into chunks, and FEC generates
symbols, each of which has data and an index. Some symbols are just chunks; the
others help to recover chunks that were lost.
-/

namespace FecRelay

open FecRelay.Base

/-! ## Blocks -/

/-- The same class works as encoder and decoder. `decodeCalls` records the indices
passed to `wirehair_decode`, oldest first; no branch reads it. -/
structure BlockFec (W : Wirehair) where
  /-- The encoding constructor leaves this unset; only a decode reads it. -/
  blockSize : Nat := 0
  wirehair : W.Codec
  decodeCalls : List Nat := []

namespace BlockFec

variable {W : Wirehair}

/-- `BlockFec(std::string_view block)`. -/
def ofBlock (block : Bytes) : Checked (BlockFec W) :=
  match W.encoderCreate block maxBlockPacketSize with
  | none => .error (.enforce "m_wirehair.get()")
  | some codec => .ok { wirehair := codec }

/-- `BlockFec(std::uint64_t block_size)`. -/
def ofSize (blockSize : Nat) : Checked (BlockFec W) :=
  match W.decoderCreate blockSize maxBlockPacketSize with
  | none => .error (.enforce "m_wirehair.get()")
  | some codec => .ok { blockSize := u32 blockSize, wirehair := codec }

def getSymbolData (fec : BlockFec W) (symbolIndex : Nat) : Checked Bytes := do
  let (res, written) := W.encode fec.wirehair symbolIndex maxBlockPacketSize
  enforce (decide (res = .success))
    "wirehair_encode( m_wirehair.get(), symbol_index, &res[0], res.size(), &bytes_written ) == 0"
  pure written

/-- The object after a decode of symbol `symbolIndex`. -/
def decoded (fec : BlockFec W) (data : Bytes) (symbolIndex : Nat) : BlockFec W :=
  { fec with
    wirehair := (W.decode fec.wirehair symbolIndex data).2
    decodeCalls := fec.decodeCalls ++ [symbolIndex] }

/-- The recovery of a block that was decoded. -/
def recovered : Method Fault (BlockFec W) Bytes := do
  let fec ← get
  let (res, block) := W.recover fec.wirehair fec.blockSize
  Method.lift (enforce (decide (res = .success))
    "wirehair_recover( m_wirehair.get(), &res[0], res.size() ) == 0")
  let (res, codec) := W.becomesEncoder fec.wirehair
  set { fec with wirehair := codec }
  Method.lift (enforce (decide (res = .success))
    "wirehair_decoder_becomes_encoder(m_wirehair.get()) == 0")
  pure block

/-- `process_symbol(data, symbol_index)`: the block once it is recovered, else nothing. -/
def processSymbol (data : Bytes) (symbolIndex : Nat) : Method Fault (BlockFec W) Bytes := do
  let fec ← get
  set (fec.decoded data symbolIndex)
  match (W.decode fec.wirehair symbolIndex data).1 with
  | .needMore => pure []
  | .success => recovered
  | res => throw (.runtimeError res.string)

theorem recovered_of_fail {fec : BlockFec W}
    (h : (W.recover fec.wirehair fec.blockSize).1 ≠ .success) :
    ∃ e, recovered fec = .error e fec := by
  rw [recovered, Method.bind_of_ok (Method.get_apply fec)]
  simp only [decide_eq_false h, enforce_false]
  exact ⟨_, rfl⟩

theorem recovered_of_stuck {fec : BlockFec W}
    (h : (W.recover fec.wirehair fec.blockSize).1 = .success)
    (hstuck : (W.becomesEncoder fec.wirehair).1 ≠ .success) :
    ∃ e, recovered fec = .error e { fec with wirehair := (W.becomesEncoder fec.wirehair).2 } := by
  rw [recovered, Method.bind_of_ok (Method.get_apply fec)]
  simp only [decide_eq_true h, decide_eq_false hstuck, enforce_true, enforce_false]
  exact ⟨_, rfl⟩

theorem recovered_of_success {fec : BlockFec W}
    (h : (W.recover fec.wirehair fec.blockSize).1 = .success)
    (hready : (W.becomesEncoder fec.wirehair).1 = .success) :
    recovered fec = .ok (W.recover fec.wirehair fec.blockSize).2
      { fec with wirehair := (W.becomesEncoder fec.wirehair).2 } := by
  rw [recovered, Method.bind_of_ok (Method.get_apply fec)]
  simp only [decide_eq_true h, decide_eq_true hready, enforce_true]
  rfl

/-- What a decode that asks for more leads to. -/
theorem processSymbol_of_needMore {fec : BlockFec W} {data : Bytes} {ix : Nat}
    (h : (W.decode fec.wirehair ix data).1 = .needMore) :
    processSymbol data ix fec = .ok [] (fec.decoded data ix) := by
  rw [processSymbol, Method.bind_of_ok (Method.get_apply fec),
    Method.bind_of_ok (Method.set_apply fec _), h]
  rfl

/-- What a decode that reports success leads to. -/
theorem processSymbol_of_success {fec : BlockFec W} {data : Bytes} {ix : Nat}
    (h : (W.decode fec.wirehair ix data).1 = .success) :
    processSymbol data ix fec = recovered (fec.decoded data ix) := by
  rw [processSymbol, Method.bind_of_ok (Method.get_apply fec),
    Method.bind_of_ok (Method.set_apply fec _), h]

/-- What a `process_symbol` does: the symbol goes to `wirehair_decode`, and the call
throws, yields nothing, or yields the block that was recovered. -/
theorem processSymbol_cases (fec : BlockFec W) (data : Bytes) (ix : Nat) :
    (∃ e codec, processSymbol data ix fec =
        .error e { fec.decoded data ix with wirehair := codec } ∧
      (codec = (W.decode fec.wirehair ix data).2 ∨
        codec = (W.becomesEncoder (W.decode fec.wirehair ix data).2).2 ∧
          (W.becomesEncoder (W.decode fec.wirehair ix data).2).1 ≠ .success)) ∨
    (processSymbol data ix fec = .ok [] (fec.decoded data ix)) ∨
    (∃ block codec, (W.decode fec.wirehair ix data).1 = .success ∧
      W.recover (W.decode fec.wirehair ix data).2 fec.blockSize = (.success, block) ∧
      processSymbol data ix fec = .ok block { fec.decoded data ix with wirehair := codec }) := by
  cases hres : (W.decode fec.wirehair ix data).1 with
  | needMore => exact Or.inr (Or.inl (processSymbol_of_needMore hres))
  | success =>
      rw [processSymbol_of_success hres]
      by_cases hrecover : (W.recover (fec.decoded data ix).wirehair fec.blockSize).1 = .success
      · by_cases hready : (W.becomesEncoder (fec.decoded data ix).wirehair).1 = .success
        · refine Or.inr (Or.inr ⟨_, _, rfl, ?_, recovered_of_success hrecover hready⟩)
          exact Prod.ext hrecover rfl
        · obtain ⟨e, hthrow⟩ := recovered_of_stuck hrecover hready
          exact Or.inl ⟨e, _, hthrow, Or.inr ⟨rfl, hready⟩⟩
      · obtain ⟨e, hthrow⟩ := recovered_of_fail hrecover
        exact Or.inl ⟨e, _, hthrow, Or.inl rfl⟩
  | _ =>
      -- any other result is thrown
      rw [processSymbol, Method.bind_of_ok (Method.get_apply fec),
        Method.bind_of_ok (Method.set_apply fec _), hres]
      exact Or.inl ⟨_, _, rfl, Or.inl rfl⟩

/-- What a `process_symbol` that returns did. -/
theorem processSymbol_ok {fec fec' : BlockFec W} {data block : Bytes} {ix : Nat}
    (h : processSymbol data ix fec = .ok block fec') :
    ((W.decode fec.wirehair ix data).1 = .needMore ∧ block = [] ∧ fec' = fec.decoded data ix) ∨
    ((W.decode fec.wirehair ix data).1 = .success ∧
      W.recover (fec.decoded data ix).wirehair fec.blockSize = (.success, block) ∧
      (W.becomesEncoder (fec.decoded data ix).wirehair).1 = .success ∧
      fec' = { fec.decoded data ix with
        wirehair := (W.becomesEncoder (fec.decoded data ix).wirehair).2 }) := by
  cases hres : (W.decode fec.wirehair ix data).1 with
  | needMore =>
      rw [processSymbol_of_needMore hres] at h
      cases h
      exact Or.inl ⟨rfl, rfl, rfl⟩
  | success =>
      rw [processSymbol_of_success hres] at h
      by_cases hrecover : (W.recover (fec.decoded data ix).wirehair fec.blockSize).1 = .success
      · by_cases hready : (W.becomesEncoder (fec.decoded data ix).wirehair).1 = .success
        · rw [recovered_of_success hrecover hready] at h
          cases h
          exact Or.inr ⟨rfl, Prod.ext hrecover rfl, hready, rfl⟩
        · obtain ⟨e, hthrow⟩ := recovered_of_stuck hrecover hready
          rw [hthrow] at h
          cases h
      · obtain ⟨e, hthrow⟩ := recovered_of_fail hrecover
        rw [hthrow] at h
        cases h
  | _ =>
      -- any other result is thrown
      rw [processSymbol, Method.bind_of_ok (Method.get_apply fec),
        Method.bind_of_ok (Method.set_apply fec _), hres] at h
      cases h

/-- What a `process_symbol` that throws leaves. -/
theorem processSymbol_error {fec fec' : BlockFec W} {data : Bytes} {ix : Nat} {e : Fault}
    (h : processSymbol data ix fec = .error e fec') :
    ∃ codec, fec' = { fec.decoded data ix with wirehair := codec } ∧
      (codec = (W.decode fec.wirehair ix data).2 ∨
        codec = (W.becomesEncoder (W.decode fec.wirehair ix data).2).2 ∧
          (W.becomesEncoder (W.decode fec.wirehair ix data).2).1 ≠ .success) := by
  rcases processSymbol_cases fec data ix with ⟨e', codec, heq, hcodec⟩ | heq | ⟨_, _, _, _, heq⟩
  · rw [heq] at h
    cases h
    exact ⟨codec, rfl, hcodec⟩
  · rw [heq] at h
    cases h
  · rw [heq] at h
    cases h

end BlockFec

/-! ## Streams -/

/-- A call that writes what a codec left, and goes on if the codec reports success. -/
theorem enforced_ok_iff {σ α : Type} {s s₁ s' : σ} {a : α} {success : Prop} [Decidable success]
    {expr : String} {m : Method Fault σ α} :
    (set s₁ >>= fun _ => Method.lift (enforce (decide success) expr) >>= fun _ => m :
      Method Fault σ α) s = .ok a s' ↔ success ∧ m s₁ = .ok a s' := by
  rw [Method.bind_of_ok (Method.set_apply s s₁), Method.lift_bind_ok_iff]
  by_cases hsuccess : success <;> simp [hsuccess]

/-- `StreamFecCommon::PACKET_INDEX_FEC`. -/
def packetIndexFec : Nat := 2 ^ 32 - 1

/-- `added` and `emitted` record the chunks added and the recovery symbols generated,
oldest first; no branch reads them. -/
structure StreamFecEncoder (S : Siamese) where
  encoder : S.Encoder := S.encoderCreate
  added : List Bytes := []
  emitted : List Bytes := []

namespace StreamFecEncoder

variable {S : Siamese}

/-- `add_chunk(data)`: the number of the chunk. -/
def addChunk (data : Bytes) : Method Fault (StreamFecEncoder S) Nat := do
  let s ← get
  let (res, packetNum, encoder) := S.encoderAdd s.encoder data
  set { s with encoder := encoder }
  Method.lift (enforce (decide (res = .success))
    "siamese_encoder_add(m_encoder.get(), &packet) == 0")
  modify fun s => { s with added := s.added ++ [data] }
  pure packetNum

def generateFecSymbol : Method Fault (StreamFecEncoder S) (Bytes × Nat) := do
  let s ← get
  let (res, recovery, encoder) := S.encode s.encoder
  set { s with encoder := encoder }
  Method.lift (enforce (decide (res = .success))
    "siamese_encode(m_encoder.get(), &fec_packet) == 0")
  modify fun s => { s with emitted := s.emitted ++ [recovery] }
  pure (recovery, packetIndexFec)

/-- `process_ack(ack_message)`: the number the receiver expects next. -/
def processAck (ackMessage : Bytes) : Method Fault (StreamFecEncoder S) Nat := do
  let s ← get
  let (res, nextPacketIndex, encoder) := S.encoderAck s.encoder ackMessage
  set { s with encoder := encoder }
  Method.lift (enforce (decide (res = .success)) (String.append
    "siamese_encoder_ack( m_encoder.get(), char_cast<void const *>(ack_message.data()), "
    "ack_message.size(), &next_packet_index ) == 0"))
  pure nextPacketIndex

theorem addChunk_ok_iff {data : Bytes} {s s' : StreamFecEncoder S} {num : Nat} :
    addChunk data s = .ok num s' ↔
      (S.encoderAdd s.encoder data).1 = .success ∧ num = (S.encoderAdd s.encoder data).2.1 ∧
        s' = {
          encoder := (S.encoderAdd s.encoder data).2.2
          added := s.added ++ [data]
          emitted := s.emitted } := by
  rw [addChunk, Method.bind_of_ok (Method.get_apply s)]
  refine enforced_ok_iff.trans (and_congr_right fun _ => ?_)
  show EStateM.Result.ok _ _ = _ ↔ _
  simp [eq_comm]

theorem generateFecSymbol_ok_iff {s s' : StreamFecEncoder S} {symbol : Bytes × Nat} :
    generateFecSymbol s = .ok symbol s' ↔
      (S.encode s.encoder).1 = .success ∧ symbol = ((S.encode s.encoder).2.1, packetIndexFec) ∧
        s' = {
          encoder := (S.encode s.encoder).2.2
          added := s.added
          emitted := s.emitted ++ [(S.encode s.encoder).2.1] } := by
  rw [generateFecSymbol, Method.bind_of_ok (Method.get_apply s)]
  refine enforced_ok_iff.trans (and_congr_right fun _ => ?_)
  show EStateM.Result.ok _ _ = _ ↔ _
  simp [eq_comm]

/-- A packet that is refused is not recorded. -/
theorem addChunk_of_refused {data : Bytes} {s : StreamFecEncoder S}
    (h : (S.encoderAdd s.encoder data).1 ≠ .success) : addChunk data s =
      .error (.enforce "siamese_encoder_add(m_encoder.get(), &packet) == 0")
        { s with encoder := (S.encoderAdd s.encoder data).2.2 } := by
  rw [addChunk, Method.bind_of_ok (Method.get_apply s)]
  simp only [decide_eq_false h, enforce_false]
  rfl

theorem generateFecSymbol_of_refused {s : StreamFecEncoder S}
    (h : (S.encode s.encoder).1 ≠ .success) : generateFecSymbol s =
      .error (.enforce "siamese_encode(m_encoder.get(), &fec_packet) == 0")
        { s with encoder := (S.encode s.encoder).2.2 } := by
  rw [generateFecSymbol, Method.bind_of_ok (Method.get_apply s)]
  simp only [decide_eq_false h, enforce_false]
  rfl

theorem processAck_ok_iff {ackMessage : Bytes} {s s' : StreamFecEncoder S} {num : Nat} :
    processAck ackMessage s = .ok num s' ↔
      (S.encoderAck s.encoder ackMessage).1 = .success ∧
        num = (S.encoderAck s.encoder ackMessage).2.1 ∧
        s' = { s with encoder := (S.encoderAck s.encoder ackMessage).2.2 } := by
  rw [processAck, Method.bind_of_ok (Method.get_apply s)]
  refine enforced_ok_iff.trans (and_congr_right fun _ => ?_)
  show EStateM.Result.ok _ _ = _ ↔ _
  simp [eq_comm]

/-- The encoder has the history that was recorded. -/
def Recorded (s : StreamFecEncoder S) : Prop := S.EncoderRun s.added s.emitted s.encoder

end StreamFecEncoder

structure StreamFecDecoder (S : Siamese) where
  decoder : S.Decoder := S.decoderCreate

namespace StreamFecDecoder

variable {S : Siamese}

def processSymbol (data : Bytes) (index : Nat) : Method Fault (StreamFecDecoder S) Unit := do
  let s ← get
  if index = packetIndexFec then
    let (res, decoder) := S.decoderAddRecovery s.decoder data
    set ({ decoder := decoder } : StreamFecDecoder S)
    Method.lift (enforce (decide (res = .success))
      "siamese_decoder_add_recovery( m_decoder.get(), &packet ) == 0")
  else
    let (res, decoder) := S.decoderAddOriginal s.decoder index data
    set ({ decoder := decoder } : StreamFecDecoder S)
    Method.lift (enforce (decide (res = .success) || decide (res = .duplicateData))
      "res == 0 || res == Siamese_DuplicateData")

/-- `get_new_chunks()`: recovered chunks with their indices. -/
def getNewChunks : Method Fault (StreamFecDecoder S) (List (Bytes × Nat)) := do
  let s ← get
  let (res, packets, decoder) := S.decode s.decoder
  set ({ decoder := decoder } : StreamFecDecoder S)
  if res = .success then
    pure (packets.map fun packet => (packet.2, packet.1))
  else
    throw (.enforce0 "siamese_decode( m_decoder.get(), &packets, &n_packets )" res.code)

def hasData : Method Fault (StreamFecDecoder S) Bool := do
  let s ← get
  let (res, decoder) := S.decoderIsReady s.decoder
  set ({ decoder := decoder } : StreamFecDecoder S)
  match res with
  | .success => pure true
  | .needMoreData => pure false
  | _ => throw (.runtimeError "siamese_decoder_is_ready")

def generateAck : Method Fault (StreamFecDecoder S) Bytes := do
  let s ← get
  let (res, message, decoder) := S.decoderAck s.decoder maxBlockPacketSize
  set ({ decoder := decoder } : StreamFecDecoder S)
  Method.lift (enforce (decide (res = .success))
    "siamese_decoder_ack( m_decoder.get(), &message[0], message.size(), &bytes_written ) == 0")
  pure message

theorem processSymbol_ok {data : Bytes} {index : Nat} {s s' : StreamFecDecoder S}
    (h : processSymbol data index s = .ok () s') :
    s' = ⟨if index = packetIndexFec then (S.decoderAddRecovery s.decoder data).2
      else (S.decoderAddOriginal s.decoder index data).2⟩ := by
  rw [processSymbol, Method.bind_of_ok (Method.get_apply s)] at h
  by_cases hfec : index = packetIndexFec
  · rw [if_pos hfec] at h ⊢
    by_cases hres : (S.decoderAddRecovery s.decoder data).1 = .success
    · simp only [decide_eq_true hres, enforce_true] at h
      cases h
      rfl
    · simp only [decide_eq_false hres, enforce_false] at h
      cases h
  · rw [if_neg hfec] at h ⊢
    cases hres : (decide ((S.decoderAddOriginal s.decoder index data).1 = .success) ||
        decide ((S.decoderAddOriginal s.decoder index data).1 = .duplicateData)) with
    | true =>
        simp only [hres, enforce_true] at h
        cases h
        rfl
    | false =>
        simp only [hres, enforce_false] at h
        cases h

theorem getNewChunks_ok {chunks : List (Bytes × Nat)} {s s' : StreamFecDecoder S}
    (h : getNewChunks s = .ok chunks s') :
    (S.decode s.decoder).1 = .success ∧
      chunks = (S.decode s.decoder).2.1.map (fun packet => (packet.2, packet.1)) ∧
      s' = ⟨(S.decode s.decoder).2.2⟩ := by
  rw [getNewChunks, Method.bind_of_ok (Method.get_apply s)] at h
  by_cases hres : (S.decode s.decoder).1 = .success
  · simp only [hres, if_true] at h
    cases h
    exact ⟨hres, rfl, rfl⟩
  · simp only [hres, if_false] at h
    cases h

theorem hasData_ok_iff {ready : Bool} {s s' : StreamFecDecoder S} :
    hasData s = .ok ready s' ↔
      ((ready = true ∧ (S.decoderIsReady s.decoder).1 = .success) ∨
        (ready = false ∧ (S.decoderIsReady s.decoder).1 = .needMoreData)) ∧
      s' = ⟨(S.decoderIsReady s.decoder).2⟩ := by
  rw [hasData, Method.bind_of_ok (Method.get_apply s)]
  dsimp only
  rw [Method.bind_of_ok (Method.set_apply s _)]
  cases (S.decoderIsReady s.decoder).1 <;> simp [eq_comm]

theorem hasData_of_refused {s : StreamFecDecoder S}
    (hsuccess : (S.decoderIsReady s.decoder).1 ≠ .success)
    (hneed : (S.decoderIsReady s.decoder).1 ≠ .needMoreData) : hasData s =
      .error (.runtimeError "siamese_decoder_is_ready") ⟨(S.decoderIsReady s.decoder).2⟩ := by
  rw [hasData, Method.bind_of_ok (Method.get_apply s)]
  dsimp only
  rw [Method.bind_of_ok (Method.set_apply s _)]
  cases h : (S.decoderIsReady s.decoder).1 with
  | success => exact absurd h hsuccess
  | needMoreData => exact absurd h hneed
  | _ => rfl

theorem hasData_ok {ready : Bool} {s s' : StreamFecDecoder S} (h : hasData s = .ok ready s') :
    s' = ⟨(S.decoderIsReady s.decoder).2⟩ := (hasData_ok_iff.mp h).2

theorem hasData_answered {ready : Bool} {s s' : StreamFecDecoder S} (h : hasData s = .ok ready s') :
    (S.decoderIsReady s.decoder).1 = .success ∨ (S.decoderIsReady s.decoder).1 = .needMoreData :=
  (hasData_ok_iff.mp h).1.imp And.right And.right

theorem generateAck_ok_iff {message : Bytes} {s s' : StreamFecDecoder S} :
    generateAck s = .ok message s' ↔
      (S.decoderAck s.decoder maxBlockPacketSize).1 = .success ∧
        message = (S.decoderAck s.decoder maxBlockPacketSize).2.1 ∧
        s' = ⟨(S.decoderAck s.decoder maxBlockPacketSize).2.2⟩ := by
  rw [generateAck, Method.bind_of_ok (Method.get_apply s)]
  refine enforced_ok_iff.trans (and_congr_right fun _ => ?_)
  show EStateM.Result.ok _ _ = _ ↔ _
  simp [eq_comm]

theorem generateAck_ok {message : Bytes} {s s' : StreamFecDecoder S}
    (h : generateAck s = .ok message s') :
    s' = ⟨(S.decoderAck s.decoder maxBlockPacketSize).2.2⟩ := (generateAck_ok_iff.mp h).2.2

/-- The codec takes a symbol, an original packet also as a duplicate. -/
def Takes (s : StreamFecDecoder S) (data : Bytes) (index : Nat) : Prop :=
  if index = packetIndexFec then (S.decoderAddRecovery s.decoder data).1 = .success
  else (S.decoderAddOriginal s.decoder index data).1 = .success ∨
    (S.decoderAddOriginal s.decoder index data).1 = .duplicateData

theorem processSymbol_of_taken {data : Bytes} {index : Nat} {s : StreamFecDecoder S}
    (h : s.Takes data index) : processSymbol data index s =
      .ok () ⟨if index = packetIndexFec then (S.decoderAddRecovery s.decoder data).2
        else (S.decoderAddOriginal s.decoder index data).2⟩ := by
  unfold Takes at h
  rw [processSymbol, Method.bind_of_ok (Method.get_apply s)]
  by_cases hfec : index = packetIndexFec
  · rw [if_pos hfec] at h ⊢
    rw [if_pos hfec]
    simp only [decide_eq_true h, enforce_true]
    rfl
  · rw [if_neg hfec] at h ⊢
    rw [if_neg hfec]
    have hres : (decide ((S.decoderAddOriginal s.decoder index data).1 = .success) ||
        decide ((S.decoderAddOriginal s.decoder index data).1 = .duplicateData)) = true := by
      simpa using h
    simp only [hres, enforce_true]
    rfl

/-- A symbol that the codec does not take is thrown. -/
theorem processSymbol_of_refused {data : Bytes} {index : Nat} {s : StreamFecDecoder S}
    (h : ¬s.Takes data index) :
    ∃ expression s', processSymbol data index s = .error (.enforce expression) s' := by
  unfold Takes at h
  rw [processSymbol, Method.bind_of_ok (Method.get_apply s)]
  by_cases hfec : index = packetIndexFec
  · rw [if_pos hfec] at h ⊢
    simp only [decide_eq_false h, enforce_false]
    exact ⟨_, _, rfl⟩
  · rw [if_neg hfec] at h ⊢
    have hres : (decide ((S.decoderAddOriginal s.decoder index data).1 = .success) ||
        decide ((S.decoderAddOriginal s.decoder index data).1 = .duplicateData)) = false := by
      simpa using h
    simp only [hres, enforce_false]
    exact ⟨_, _, rfl⟩

theorem takes_of_ok {data : Bytes} {index : Nat} {s s' : StreamFecDecoder S}
    (h : processSymbol data index s = .ok () s') : s.Takes data index := by
  by_contra hrefused
  obtain ⟨expression, x, hthrow⟩ := processSymbol_of_refused hrefused
  rw [hthrow] at h
  cases h

theorem getNewChunks_of_success {s : StreamFecDecoder S} (h : (S.decode s.decoder).1 = .success) :
    getNewChunks s = .ok ((S.decode s.decoder).2.1.map fun packet => (packet.2, packet.1))
      ⟨(S.decode s.decoder).2.2⟩ := by
  rw [getNewChunks, Method.bind_of_ok (Method.get_apply s)]
  simp only [h, if_true]
  rfl

/-- A decode that fails is thrown. -/
theorem getNewChunks_of_refused {s : StreamFecDecoder S}
    (h : (S.decode s.decoder).1 ≠ .success) : getNewChunks s =
      .error (.enforce0 "siamese_decode( m_decoder.get(), &packets, &n_packets )"
        (S.decode s.decoder).1.code) ⟨(S.decode s.decoder).2.2⟩ := by
  rw [getNewChunks, Method.bind_of_ok (Method.get_apply s)]
  simp only [h, if_false]
  rfl

theorem generateAck_of_refused {s : StreamFecDecoder S}
    (h : (S.decoderAck s.decoder maxBlockPacketSize).1 ≠ .success) : generateAck s = .error (.enforce
      "siamese_decoder_ack( m_decoder.get(), &message[0], message.size(), &bytes_written ) == 0")
        ⟨(S.decoderAck s.decoder maxBlockPacketSize).2.2⟩ := by
  rw [generateAck, Method.bind_of_ok (Method.get_apply s)]
  simp only [decide_eq_false h, enforce_false]
  rfl

end StreamFecDecoder

end FecRelay
