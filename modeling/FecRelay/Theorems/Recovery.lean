import FecRelay.Base.Run
import FecRelay.Codec.Parity
import FecRelay.Stream

/-!
# Recovery that has to wait

A peer's symbols reach a decoder in any order, with losses and repetitions. Whether
the decoder processes a symbol and acknowledges it depends on the codec alone: it does
unless the codec does not take the symbol or stalls, and otherwise it throws.
-/

namespace FecRelay

open FecRelay.Base

/-- A symbol of an encoder that was given `added` and emitted `emitted`. -/
inductive IsSent (added emitted : List Bytes) : Symbol → Prop
  | chunk {k : Nat} {data : Bytes} :
      added[k]? = some data → IsSent added emitted (data, k % siamesePacketNumCount)
  | recovery {data : Bytes} : data ∈ emitted → IsSent added emitted (data, packetIndexFec)

namespace ContinuousStreamDecoder

variable {S : Siamese}

/-- `process_symbol` followed by `generate_ack`. -/
def receive (rounds : Nat) (symbol : Symbol) : Method Fault (ContinuousStreamDecoder S) Bytes := do
  processSymbol rounds symbol.1 symbol.2
  generateAck

/-- A symbol is received: the calls return. -/
def Receives (d : ContinuousStreamDecoder S) (symbol : Symbol) (d' : ContinuousStreamDecoder S) :
    Prop :=
  ∃ rounds ack, receive rounds symbol d = .ok ack d'

/-- The codec's decoder once the symbol was handed to it. -/
def given (d : ContinuousStreamDecoder S) (symbol : Symbol) : S.Decoder :=
  if symbol.2 = packetIndexFec then (S.decoderAddRecovery d.decoder.decoder symbol.1).2
  else (S.decoderAddOriginal d.decoder.decoder symbol.2 symbol.1).2

/-- The decoder before the decode loop. -/
def taken (d : ContinuousStreamDecoder S) (symbol : Symbol) : ContinuousStreamDecoder S :=
  if symbol.2 = packetIndexFec then { d with decoder := ⟨d.given symbol⟩ }
  else withChunk { d with decoder := ⟨d.given symbol⟩ } symbol

@[simp] theorem taken_decoder (d : ContinuousStreamDecoder S) (symbol : Symbol) :
    (d.taken symbol).decoder = ⟨d.given symbol⟩ := by
  unfold taken
  split <;> rfl

/-! ## The decode loop -/

/-- A pass of the loop over a codec that solves. -/
theorem decodeLoop_of_solves {d : ContinuousStreamDecoder S} (h : S.Solves d.decoder.decoder) :
    ∃ d₁ : ContinuousStreamDecoder S, d₁.decoder = ⟨S.solved d.decoder.decoder⟩ ∧
      ∀ rounds, decodeLoop (rounds + 1) d = decodeLoop rounds d₁ := by
  obtain ⟨hready, hsuccess⟩ := h
  have hdata : onDecoder StreamFecDecoder.hasData d = .ok true
      { d with decoder := ⟨(S.decoderIsReady d.decoder.decoder).2⟩ } :=
    Method.zoom_of_ok (StreamFecDecoder.hasData_ok_iff.mpr ⟨Or.inl ⟨rfl, hready⟩, rfl⟩)
  have hchunks : onDecoder StreamFecDecoder.getNewChunks
      { d with decoder := ⟨(S.decoderIsReady d.decoder.decoder).2⟩ } =
        .ok ((S.solution d.decoder.decoder).map fun packet => (packet.2, packet.1))
          { d with decoder := ⟨S.solved d.decoder.decoder⟩ } :=
    Method.zoom_of_ok (StreamFecDecoder.getNewChunks_of_success hsuccess)
  refine ⟨((S.solution d.decoder.decoder).map fun packet => (packet.2, packet.1)).foldl withChunk
    { d with decoder := ⟨S.solved d.decoder.decoder⟩ }, foldl_withChunk_decoder _ _, ?_⟩
  intro rounds
  rw [decodeLoop, Method.bind_of_ok hdata, if_pos rfl, Method.bind_of_ok hchunks,
    Method.bind_of_ok (forEach_processOriginalChunk _ _)]

/-- The loop ends where the codec needs more data. -/
theorem decodeLoop_of_needMore {d : ContinuousStreamDecoder S}
    (h : (S.decoderIsReady d.decoder.decoder).1 = .needMoreData) (rounds : Nat) :
    decodeLoop (rounds + 1) d =
      .ok () { d with decoder := ⟨(S.decoderIsReady d.decoder.decoder).2⟩ } :=
  decodeLoop_ok_iff.mpr ⟨false, _,
    StreamFecDecoder.hasData_ok_iff.mpr ⟨Or.inr ⟨rfl, h⟩, rfl⟩, Or.inl ⟨rfl, rfl⟩⟩

/-- A codec that does not say whether it is ready is an error. -/
theorem decodeLoop_of_refused {d : ContinuousStreamDecoder S}
    (hsuccess : (S.decoderIsReady d.decoder.decoder).1 ≠ .success)
    (hneed : (S.decoderIsReady d.decoder.decoder).1 ≠ .needMoreData) (rounds : Nat) :
    ∃ d', decodeLoop (rounds + 1) d = .error (.runtimeError "siamese_decoder_is_ready") d' := by
  have hdata : onDecoder StreamFecDecoder.hasData d = .error _ _ :=
    Method.zoom_of_error (StreamFecDecoder.hasData_of_refused hsuccess hneed)
  rw [decodeLoop, Method.bind_of_error hdata]
  exact ⟨_, rfl⟩

/-- A codec that is ready and then cannot solve is an error. -/
theorem decodeLoop_of_unsolved {d : ContinuousStreamDecoder S}
    (hready : (S.decoderIsReady d.decoder.decoder).1 = .success)
    (hunsolved : (S.decode (S.decoderIsReady d.decoder.decoder).2).1 ≠ .success)
    (rounds : Nat) : ∃ code d', decodeLoop (rounds + 1) d = .error (.enforce0
      "siamese_decode( m_decoder.get(), &packets, &n_packets )" code) d' := by
  have hdata : onDecoder StreamFecDecoder.hasData d = .ok true
      { d with decoder := ⟨(S.decoderIsReady d.decoder.decoder).2⟩ } :=
    Method.zoom_of_ok (StreamFecDecoder.hasData_ok_iff.mpr ⟨Or.inl ⟨rfl, hready⟩, rfl⟩)
  have hthrow := StreamFecDecoder.getNewChunks_of_refused
    (s := ⟨(S.decoderIsReady d.decoder.decoder).2⟩) hunsolved
  have hchunks : onDecoder StreamFecDecoder.getNewChunks
      { d with decoder := ⟨(S.decoderIsReady d.decoder.decoder).2⟩ } = .error _ _ :=
    Method.zoom_of_error hthrow
  rw [decodeLoop, Method.bind_of_ok hdata, if_pos rfl, Method.bind_of_error hchunks]
  exact ⟨_, _, rfl⟩

theorem generateAck_ok_iff {d d' : ContinuousStreamDecoder S} {ack : Bytes} :
    generateAck d = .ok ack d' ↔ (S.decoderAck d.decoder.decoder maxBlockPacketSize).1 = .success ∧
      ack = (S.decoderAck d.decoder.decoder maxBlockPacketSize).2.1 ∧
      d' = { d with decoder := ⟨(S.decoderAck d.decoder.decoder maxBlockPacketSize).2.2⟩ } := by
  unfold generateAck onDecoder
  rw [Method.zoom_ok_iff]
  constructor
  · rintro ⟨x, hx, rfl⟩
    obtain ⟨hsuccess, rfl, rfl⟩ := StreamFecDecoder.generateAck_ok_iff.mp hx
    exact ⟨hsuccess, rfl, rfl⟩
  · rintro ⟨hsuccess, rfl, rfl⟩
    exact ⟨_, StreamFecDecoder.generateAck_ok_iff.mpr ⟨hsuccess, rfl, rfl⟩, rfl⟩

/-- A codec that has no data to acknowledge is an error. -/
theorem generateAck_of_refused {d : ContinuousStreamDecoder S}
    (h : (S.decoderAck d.decoder.decoder maxBlockPacketSize).1 ≠ .success) :
    ∃ d', generateAck d = .error (.enforce
      "siamese_decoder_ack( m_decoder.get(), &message[0], message.size(), &bytes_written ) == 0")
        d' := by
  unfold generateAck onDecoder
  exact ⟨_, Method.zoom_of_error (StreamFecDecoder.generateAck_of_refused h)⟩

/-! ## Where the codec stalls -/

/-- A stalled codec ends the calls with an exception, and not by a loop that does not end. -/
theorem throws_of_stalls {x : S.Decoder} (h : S.Stalls x) :
    ∀ d : ContinuousStreamDecoder S, d.decoder = ⟨x⟩ → ∃ rounds fault d',
      (decodeLoop rounds >>= fun _ => generateAck) d = .error fault d' ∧ fault ≠ .diverges := by
  induction h with
  | refused hsuccess hneed =>
      rintro d hd
      obtain ⟨d', hthrow⟩ := decodeLoop_of_refused (d := d) (by rwa [hd]) (by rwa [hd]) 0
      exact ⟨1, .runtimeError _, d', Method.bind_of_error hthrow, nofun⟩
  | unsolved hready hunsolved =>
      rintro d hd
      obtain ⟨code, d', hthrow⟩ := decodeLoop_of_unsolved (d := d) (by rwa [hd]) (by rwa [hd]) 0
      exact ⟨1, .enforce0 _ _, d', Method.bind_of_error hthrow, nofun⟩
  | later hsolves _ ih =>
      rintro d hd
      obtain ⟨d₁, hd₁, hpass⟩ := decodeLoop_of_solves (d := d) (by rwa [hd])
      rw [hd] at hd₁
      obtain ⟨rounds, fault, d', hthrow, hfault⟩ := ih d₁ hd₁
      refine ⟨rounds + 1, fault, d', ?_, hfault⟩
      rw [Method.bind_apply] at hthrow ⊢
      rw [hpass]
      exact hthrow
  | noData hready hack =>
      rintro d hd
      have hloop := decodeLoop_of_needMore (d := d) (by rwa [hd]) 0
      obtain ⟨d', hthrow⟩ := generateAck_of_refused
        (d := { d with decoder := ⟨(S.decoderIsReady d.decoder.decoder).2⟩ }) (by rwa [hd])
      exact ⟨1, _, d', (Method.bind_of_ok hloop).trans hthrow, nofun⟩

/-- The calls return only where the codec does not stall. -/
theorem not_stalls_of_ok {rounds : Nat} {d d₁ d' : ContinuousStreamDecoder S} {ack : Bytes}
    (hloop : decodeLoop rounds d = .ok () d₁) (hack : generateAck d₁ = .ok ack d') :
    ¬ S.Stalls d.decoder.decoder := by
  induction rounds generalizing d with
  | zero => cases hloop
  | succ rounds ih =>
      obtain ⟨ready, x, hready, hrest⟩ := decodeLoop_ok_iff.mp hloop
      obtain ⟨hanswer, rfl⟩ := StreamFecDecoder.hasData_ok_iff.mp hready
      rcases hrest with ⟨rfl, rfl⟩ | ⟨rfl, chunks, y, hchunks, hrest⟩
      · -- the loop ended, so the acknowledgement was generated
        have hsuccess := (generateAck_ok_iff.mp hack).1
        have hneed : (S.decoderIsReady d.decoder.decoder).1 = .needMoreData := by
          simpa using hanswer
        intro hstalls
        cases hstalls with
        | refused _ h => exact h hneed
        | unsolved h _ => rw [hneed] at h; cases h
        | later h _ =>
            have := h.1
            rw [hneed] at this
            cases this
        | noData _ h => exact h hsuccess
      · obtain ⟨hsuccess, -, rfl⟩ := StreamFecDecoder.getNewChunks_ok hchunks
        have hyes : (S.decoderIsReady d.decoder.decoder).1 = .success := by simpa using hanswer
        have hlater := ih hrest
        rw [foldl_withChunk_decoder] at hlater
        intro hstalls
        cases hstalls with
        | refused h _ => exact h hyes
        | unsolved _ h => exact h hsuccess
        | later _ h => exact hlater h
        | noData h _ => rw [hyes] at h; cases h

/-- The calls return unless the codec stalls. -/
theorem returns_of_not_stalls (hS : S.Progresses) {added emitted : List Bytes} {e : S.Encoder}
    (henc : S.EncoderRun added emitted e) {x : S.Decoder} (hx : S.Heard added emitted x) :
    ¬ S.Stalls x → ∀ d : ContinuousStreamDecoder S, d.decoder = ⟨x⟩ → ∃ rounds ack d',
      (decodeLoop rounds >>= fun _ => generateAck) d = .ok ack d' := by
  refine hS.drain_induction henc (P := fun x => ¬ S.Stalls x →
    ∀ d : ContinuousStreamDecoder S, d.decoder = ⟨x⟩ → ∃ rounds ack d',
      (decodeLoop rounds >>= fun _ => generateAck) d = .ok ack d') ?stop ?pass hx
  case stop =>
    rintro x hx hsolves hstalls d hd
    by_cases hready : (S.decoderIsReady x).1 = .success
    · by_cases hdecode : (S.decode (S.decoderIsReady x).2).1 = .success
      · exact absurd ⟨hready, hdecode⟩ hsolves
      · exact absurd (.unsolved hready hdecode) hstalls
    · have hneed : (S.decoderIsReady x).1 = .needMoreData := by
        by_contra hneed
        exact hstalls (.refused hready hneed)
      have hack : (S.decoderAck (S.decoderIsReady x).2 maxBlockPacketSize).1 = .success := by
        by_contra hack
        exact hstalls (.noData hneed hack)
      have hloop := decodeLoop_of_needMore (d := d) (by rwa [hd]) 0
      have hreturn := (generateAck_ok_iff
        (d := { d with decoder := ⟨(S.decoderIsReady d.decoder.decoder).2⟩ })).mpr
          ⟨by rwa [hd], rfl, rfl⟩
      exact ⟨1, _, _, (Method.bind_of_ok hloop).trans hreturn⟩
  case pass =>
    rintro x hx hsolves ih hstalls d hd
    obtain ⟨d₁, hd₁, hpass⟩ := decodeLoop_of_solves (d := d) (by rwa [hd])
    rw [hd] at hd₁
    obtain ⟨rounds, ack, d', hreturn⟩ := ih (fun h => hstalls (.later hsolves h)) d₁ hd₁
    refine ⟨rounds + 1, ack, d', ?_⟩
    rw [Method.bind_apply] at hreturn ⊢
    rw [hpass]
    exact hreturn

/-! ## Symbols of a peer -/

theorem chunk_index_ne (k : Nat) : k % siamesePacketNumCount ≠ packetIndexFec := by
  have hlt := Nat.mod_lt k (show 0 < siamesePacketNumCount by decide)
  have hmax : siamesePacketNumCount ≤ packetIndexFec := by decide
  omega

/-- A codec that is given a peer's symbol has still heard nothing but the peer. -/
theorem heard_given {added emitted : List Bytes} {symbol : Symbol}
    {d : ContinuousStreamDecoder S} (h : IsSent added emitted symbol)
    (hd : S.Heard added emitted d.decoder.decoder) : S.Heard added emitted (d.given symbol) := by
  unfold ContinuousStreamDecoder.given
  cases h with
  | chunk hk =>
      rw [if_neg (chunk_index_ne _)]
      exact .addOriginal hd hk
  | recovery hmem =>
      rw [if_pos rfl]
      exact .addRecovery hd hmem

/-- The codec takes the symbol. -/
def Takes (d : ContinuousStreamDecoder S) (symbol : Symbol) : Prop :=
  d.decoder.Takes symbol.1 symbol.2

/-- A symbol that the codec takes is processed by the decode loop. -/
theorem receive_of_taken {d : ContinuousStreamDecoder S} {symbol : Symbol} (h : d.Takes symbol)
    (rounds : Nat) :
    receive rounds symbol d = (decodeLoop rounds >>= fun _ => generateAck) (d.taken symbol) := by
  have hcodec : onDecoder (StreamFecDecoder.processSymbol symbol.1 symbol.2) d =
      .ok () { d with decoder := ⟨d.given symbol⟩ } :=
    Method.zoom_of_ok (StreamFecDecoder.processSymbol_of_taken h)
  have hprocess : processSymbol rounds symbol.1 symbol.2 d = decodeLoop rounds (d.taken symbol) := by
    rw [processSymbol, Method.bind_of_ok hcodec]
    unfold taken
    by_cases hfec : symbol.2 = packetIndexFec
    · rw [if_neg (not_not.mpr hfec), if_pos hfec]
    · rw [if_pos hfec, if_neg hfec, Method.bind_of_ok (processOriginalChunk_apply _ _ _)]
  rw [receive, Method.bind_apply, hprocess]
  rfl

/-- A symbol that the codec does not take is thrown. -/
theorem receive_of_refused {d : ContinuousStreamDecoder S} {symbol : Symbol}
    (h : ¬d.Takes symbol) (rounds : Nat) :
    ∃ expression d', receive rounds symbol d = .error (.enforce expression) d' := by
  obtain ⟨expression, x, hthrow⟩ := StreamFecDecoder.processSymbol_of_refused h
  have hcodec : onDecoder (StreamFecDecoder.processSymbol symbol.1 symbol.2) d = .error _ _ :=
    Method.zoom_of_error hthrow
  rw [receive, processSymbol, Method.bind_apply, Method.bind_of_error hcodec]
  exact ⟨_, _, rfl⟩

/-- A peer's symbol is received if and only if the codec takes it and does not stall. -/
theorem receives_iff (hS : S.Progresses) {added emitted : List Bytes} {e : S.Encoder}
    (henc : S.EncoderRun added emitted e) {symbol : Symbol} (hsent : IsSent added emitted symbol)
    {d : ContinuousStreamDecoder S} (hd : S.Heard added emitted d.decoder.decoder) :
    (∃ d', Receives d symbol d') ↔ d.Takes symbol ∧ ¬ S.Stalls (d.given symbol) := by
  constructor
  · rintro ⟨d', rounds, ack, h⟩
    have htakes : d.Takes symbol := by
      by_contra hrefused
      obtain ⟨expression, d₁, hthrow⟩ := receive_of_refused hrefused rounds
      rw [h] at hthrow
      cases hthrow
    rw [receive_of_taken htakes] at h
    obtain ⟨⟨⟩, d₁, hloop, hack⟩ := Method.bind_ok_iff.mp h
    have hstalls := not_stalls_of_ok hloop hack
    rw [taken_decoder] at hstalls
    exact ⟨htakes, hstalls⟩
  · rintro ⟨htakes, hstalls⟩
    obtain ⟨rounds, ack, d', h⟩ := returns_of_not_stalls hS henc (heard_given hsent hd) hstalls
      (d.taken symbol) (taken_decoder d symbol)
    exact ⟨d', rounds, ack, by rwa [receive_of_taken htakes]⟩

/-- A peer's symbol ends the calls, with a return or with an exception. -/
theorem receive_terminates (hS : S.Progresses) {added emitted : List Bytes} {e : S.Encoder}
    (henc : S.EncoderRun added emitted e) {symbol : Symbol} (hsent : IsSent added emitted symbol)
    {d : ContinuousStreamDecoder S} (hd : S.Heard added emitted d.decoder.decoder) :
    ∃ rounds, Method.thrown (receive rounds symbol d) ≠ some .diverges := by
  by_cases htakes : d.Takes symbol
  · by_cases hstalls : S.Stalls (d.given symbol)
    · obtain ⟨rounds, fault, d', h, hfault⟩ :=
        throws_of_stalls hstalls (d.taken symbol) (taken_decoder d symbol)
      refine ⟨rounds, ?_⟩
      rw [receive_of_taken htakes, h]
      simpa using hfault
    · obtain ⟨rounds, ack, d', h⟩ := returns_of_not_stalls hS henc (heard_given hsent hd) hstalls
        (d.taken symbol) (taken_decoder d symbol)
      exact ⟨rounds, by rw [receive_of_taken htakes, h]; simp⟩
  · obtain ⟨expression, d', h⟩ := receive_of_refused htakes 0
    exact ⟨0, by rw [h]; simp⟩

theorem heard_decodeLoop {added emitted : List Bytes} (rounds : Nat)
    {d d' : ContinuousStreamDecoder S} (hd : S.Heard added emitted d.decoder.decoder)
    (h : decodeLoop rounds d = .ok () d') : S.Heard added emitted d'.decoder.decoder := by
  refine invariant_of_decodeLoop (I := fun t => S.Heard added emitted t.decoder.decoder)
    (fun t ht _ => .isReady ht) ?_ rounds hd h
  intro t ht _
  rw [foldl_withChunk_decoder]
  exact .decode ht

/-- A symbol that is received leaves a codec that has heard nothing but the peer. -/
theorem Receives.heard {added emitted : List Bytes} {symbol : Symbol}
    {d d' : ContinuousStreamDecoder S} (h : Receives d symbol d')
    (hsent : IsSent added emitted symbol) (hd : S.Heard added emitted d.decoder.decoder) :
    S.Heard added emitted d'.decoder.decoder := by
  obtain ⟨rounds, ack, h⟩ := h
  obtain ⟨⟨⟩, d₁, hprocess, hack⟩ := Method.bind_ok_iff.mp h
  obtain ⟨x, hx, hloop⟩ := processSymbol_ok_iff.mp hprocess
  obtain ⟨-, -, rfl⟩ := generateAck_ok_iff.mp hack
  have hgiven := heard_given hsent hd
  have hend : S.Heard added emitted d₁.decoder.decoder := by
    refine heard_decodeLoop rounds ?_ hloop
    split <;> (show S.Heard added emitted x.decoder; rwa [StreamFecDecoder.processSymbol_ok hx])
  exact .ack _ hend

theorem heard_run {added emitted : List Bytes} {symbols : List Symbol}
    {d : ContinuousStreamDecoder S} (hrun : Run Receives {} symbols d)
    (hsent : ∀ symbol ∈ symbols, IsSent added emitted symbol) :
    S.Heard added emitted d.decoder.decoder :=
  hrun.invariant_of_events (I := fun d => S.Heard added emitted d.decoder.decoder)
    (fun _ _ _ hd hsymbol h => h.heard hsymbol hd) hsent .create

/-- What a symbol leads to does not depend on how many rounds the loop is given. -/
theorem Receives.deterministic ⦃d : ContinuousStreamDecoder S⦄ ⦃symbol : Symbol⦄
    ⦃d₁ d₂ : ContinuousStreamDecoder S⦄
    (h₁ : Receives d symbol d₁) (h₂ : Receives d symbol d₂) : d₁ = d₂ := by
  obtain ⟨rounds, ack, h₁⟩ := h₁
  obtain ⟨rounds', ack', h₂⟩ := h₂
  have hrelated : Method.Related Eq Eq (receive rounds symbol :
      Method Fault (ContinuousStreamDecoder S) Bytes) (receive rounds' symbol) :=
    .bind (related_processSymbol rounds rounds' _ _) fun _ => .of_eq _
  exact (hrelated rfl h₁ h₂).2

/-- Every sequence of a peer's symbols, whatever was lost, reordered or repeated, is
received to its end if and only if the codec takes each of them and stalls on none. -/
theorem receives_all_iff (hS : S.Progresses) {added emitted : List Bytes} {e : S.Encoder}
    (henc : S.EncoderRun added emitted e) {symbols : List Symbol}
    (hsent : ∀ symbol ∈ symbols, IsSent added emitted symbol) :
    (∃ d : ContinuousStreamDecoder S, Run Receives {} symbols d) ↔
      ∀ (before after : List Symbol) (symbol : Symbol) (d : ContinuousStreamDecoder S),
        symbols = before ++ symbol :: after → Run Receives {} before d →
        d.Takes symbol ∧ ¬ S.Stalls (d.given symbol) := by
  constructor
  · rintro ⟨d', hall⟩ before after symbol d rfl hrun
    obtain ⟨d₀, hbefore, hrest⟩ := Run.of_append hall
    obtain rfl := Run.deterministic Receives.deterministic hrun hbefore
    obtain ⟨d₁, hstep, -⟩ := Run.cons_iff.mp hrest
    have hinit : ∀ s ∈ before, IsSent added emitted s :=
      fun s hs => hsent s (List.mem_append_left _ hs)
    exact (receives_iff hS henc (hsent symbol (by simp)) (heard_run hrun hinit)).mp ⟨d₁, hstep⟩
  · intro hnever
    induction symbols using List.reverseRecOn with
    | nil => exact ⟨{}, .nil _⟩
    | append_singleton symbols last ih =>
        have hinit : ∀ s ∈ symbols, IsSent added emitted s :=
          fun s hs => hsent s (List.mem_append_left _ hs)
        obtain ⟨d, hrun⟩ := ih hinit fun before after symbol d hsplit =>
          hnever before (after ++ [last]) symbol d (by rw [hsplit]; simp)
        obtain ⟨d', hlast⟩ := (receives_iff hS henc (hsent last (by simp)) (heard_run hrun hinit)).mpr
          (hnever symbols [] last d rfl hrun)
        exact ⟨d', .snoc hrun hlast⟩

/-! ## A recovery symbol that arrives twice -/

section twice

/-- The recovery symbol of an encoder that was given three chunks. -/
def recoverySymbol : Symbol := ((Parity.encode [[1], [2], [3]]).2.1, packetIndexFec)

theorem encoderRun_summing :
    summing.EncoderRun [[1], [2], [3]] [recoverySymbol.1] [[1], [2], [3]] := by
  have hadded : summing.EncoderRun [[1], [2], [3]] [] [[1], [2], [3]] :=
    .add (.add (.add .create rfl) rfl) rfl
  exact .encode hadded rfl

theorem isSent_chunk : IsSent [[1], [2], [3]] [recoverySymbol.1] ([1], 0) :=
  .chunk (k := 0) rfl

theorem isSent_recoverySymbol : IsSent [[1], [2], [3]] [recoverySymbol.1] recoverySymbol :=
  .recovery (List.mem_singleton.mpr rfl)

theorem isSent_twoSymbols : ∀ symbol ∈ [([1], 0), recoverySymbol],
    IsSent [[1], [2], [3]] [recoverySymbol.1] symbol := by
  intro symbol hsymbol
  rcases List.mem_pair.mp hsymbol with rfl | rfl
  · exact isSent_chunk
  · exact isSent_recoverySymbol

/-- Chunk 0 and the recovery symbol arrive; chunks 1 and 2 are lost. -/
def afterRecovery : ContinuousStreamDecoder summing :=
  Method.after (receive 1 recoverySymbol (Method.after (receive 1 ([1], 0) {})))

/-- Only chunk 0 has arrived. -/
def afterChunk : ContinuousStreamDecoder summing := Method.after (receive 1 ([1], 0) {})

theorem run_afterChunk : Run (Receives (S := summing)) {} [([1], 0)] afterChunk :=
  .single ⟨1, [1, 0, 0, 0], Method.eq_ok_of_returned (by decide +kernel)⟩

theorem run_afterRecovery :
    Run (Receives (S := summing)) {} [([1], 0), recoverySymbol] afterRecovery := by
  have hrecovery : Receives afterChunk recoverySymbol afterRecovery :=
    ⟨1, [1, 0, 0, 0], Method.eq_ok_of_returned (by decide +kernel)⟩
  exact .snoc run_afterChunk hrecovery

/-- Two chunks are lost and one recovery symbol covers them, so the codec waits and nothing
is thrown. -/
theorem receives_all_iff_waiting :
    afterChunk.Takes recoverySymbol ∧ ¬ summing.Stalls (afterChunk.given recoverySymbol) :=
  (receives_all_iff Parity.progresses encoderRun_summing isSent_twoSymbols).mp
    ⟨_, run_afterRecovery⟩ [([1], 0)] [] recoverySymbol afterChunk rfl run_afterChunk

/-- Not every sequence of a peer's symbols is received: the network repeats the recovery
symbol, the codec counts two equations for two lost chunks and says that it is ready, but
the equations are the same. -/
theorem repeated_recovery_throws :
    ¬ ∀ (S : Siamese), S.Interface → ∀ (added emitted : List Bytes) (e : S.Encoder),
      S.EncoderRun added emitted e → ∀ symbols : List Symbol,
      (∀ symbol ∈ symbols, IsSent added emitted symbol) →
      ∃ d : ContinuousStreamDecoder S, Run Receives {} symbols d := by
  intro hclaim
  obtain ⟨d', hall⟩ := hclaim summing Parity.interface _ _ _ encoderRun_summing
    ([([1], 0), recoverySymbol] ++ [recoverySymbol]) (by
      intro symbol hsymbol
      rcases List.mem_append.mp hsymbol with hsymbol | hsymbol
      · exact isSent_twoSymbols symbol hsymbol
      · rw [List.mem_singleton.mp hsymbol]
        exact isSent_recoverySymbol)
  obtain ⟨d, hrun, hlast⟩ := Run.snoc_iff.mp hall
  obtain rfl := Run.deterministic Receives.deterministic hrun run_afterRecovery
  have hstalls : summing.Stalls (afterRecovery.given recoverySymbol) :=
    .unsolved (by decide +kernel) (by decide +kernel)
  have hheard := heard_run run_afterRecovery isSent_twoSymbols
  exact ((receives_iff Parity.progresses encoderRun_summing isSent_recoverySymbol hheard).mp
    ⟨d', hlast⟩).2 hstalls

end twice

end ContinuousStreamDecoder

end FecRelay
