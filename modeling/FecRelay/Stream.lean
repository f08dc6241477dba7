import FecRelay.Base.TwoRuns
import FecRelay.Fec

/-!
# Streams

A `ContinuousStreamDecoder` puts the chunks of a stream back in order: whatever
arrives or is recovered ahead of its turn waits in a queue ordered by index. A
`ContinuousStreamEncoder` numbers pending chunks and mixes recovery symbols between
them at a given ratio. A relay passes chunks from the one to the other.
-/

namespace FecRelay

open FecRelay.Base

/-- `FEC_RATIO`: recovery/original. -/
def fecRatio : Rat := 2 / 5

/-- Data with an index, which is `PACKET_INDEX_FEC` for a recovery symbol. -/
abbrev Symbol := Bytes × Nat

/-- `LeastIndexTop` -/
def leastIndexTop (p1 p2 : Symbol) : Bool := decide (p2.2 < p1.2)

theorem leastIndexTop_strictWeak : PriorityBag.StrictWeak leastIndexTop where
  irrefl x := decide_eq_false (lt_irrefl x.2)
  trans x y z hxy hyz :=
    decide_eq_true (lt_trans (of_decide_eq_true hyz) (of_decide_eq_true hxy))
  negTrans x y z hxy hyz := by
    have hxy := of_decide_eq_false hxy
    have hyz := of_decide_eq_false hyz
    exact decide_eq_false (by omega)

/-! ## Decoder -/

/-- `handedOut` records the chunks `get_chunk` returned and `processed` the indices
given to `process_original_chunk`, oldest first; no branch reads them. -/
structure ContinuousStreamDecoder (S : Siamese) where
  decoder : StreamFecDecoder S := {}
  nextIndex : Nat := 0
  symbolsAhead : MovablePriorityQueue Symbol leastIndexTop := {}
  handedOut : List Bytes := []
  processed : List Nat := []

namespace ContinuousStreamDecoder

variable {S : Siamese}

/-- A call on `m_decoder`. -/
def onDecoder {α : Type} (m : Method Fault (StreamFecDecoder S) α) :
    Method Fault (ContinuousStreamDecoder S) α :=
  Method.zoom decoder (fun x d => { d with decoder := x }) m

/-- A call on `m_symbols_ahead`. -/
def onSymbolsAhead {α : Type} (m : Method Fault (MovablePriorityQueue Symbol leastIndexTop) α) :
    Method Fault (ContinuousStreamDecoder S) α :=
  Method.zoom symbolsAhead (fun q d => { d with symbolsAhead := q }) m

def hasData (d : ContinuousStreamDecoder S) : Bool :=
  match d.symbolsAhead.top with
  | none => false
  | some symbol => symbol.2 == d.nextIndex

def getChunk : Method Fault (ContinuousStreamDecoder S) Bytes := do
  modify fun d => { d with nextIndex := siamesePacketNumInc d.nextIndex }
  let symbol ← onSymbolsAhead MovablePriorityQueue.popValue
  modify fun d => { d with handedOut := d.handedOut ++ [symbol.1] }
  pure symbol.1

def processOriginalChunk (data : Bytes) (index : Nat) :
    Method Fault (ContinuousStreamDecoder S) Unit := do
  modify fun d => { d with processed := d.processed ++ [index] }
  let d ← get
  if index < d.nextIndex then
    pure ()
  else
    onSymbolsAhead (MovablePriorityQueue.push (data, index))

/-- The loop over `m_decoder.has_data()`. How often the codec says that it is ready is
its own affair, so the loop may take more `rounds` than there are. -/
def decodeLoop : Nat → Method Fault (ContinuousStreamDecoder S) Unit
  | 0 => throw .diverges
  | rounds + 1 => do
      let ready ← onDecoder StreamFecDecoder.hasData
      if ready then
        let chunks ← onDecoder StreamFecDecoder.getNewChunks
        Method.forEach (fun chunk => processOriginalChunk chunk.1 chunk.2) chunks
        decodeLoop rounds
      else
        pure ()

def processSymbol (rounds : Nat) (data : Bytes) (index : Nat) :
    Method Fault (ContinuousStreamDecoder S) Unit := do
  onDecoder (StreamFecDecoder.processSymbol data index)
  if index ≠ packetIndexFec then
    processOriginalChunk data index
  decodeLoop rounds

def generateAck : Method Fault (ContinuousStreamDecoder S) Bytes :=
  onDecoder StreamFecDecoder.generateAck

/-! ### What the calls do -/

/-- The decoder once its top chunk was handed out. -/
def handOut (d : ContinuousStreamDecoder S) (symbol : Symbol) : ContinuousStreamDecoder S :=
  { d with
    nextIndex := siamesePacketNumInc d.nextIndex
    symbolsAhead := ⟨d.symbolsAhead.c.erase symbol⟩
    handedOut := d.handedOut ++ [symbol.1] }

/-- There is data if the top of the queue is next in order. -/
theorem hasData_iff {d : ContinuousStreamDecoder S} :
    d.hasData = true ↔ ∃ symbol, d.symbolsAhead.top = some symbol ∧ symbol.2 = d.nextIndex := by
  unfold hasData
  cases d.symbolsAhead.top with
  | none => simp
  | some symbol => simp

theorem getChunk_of_top {d : ContinuousStreamDecoder S} {symbol : Symbol}
    (h : d.symbolsAhead.top = some symbol) :
    getChunk d = .ok symbol.1 (d.handOut symbol) := by
  have hpop : onSymbolsAhead MovablePriorityQueue.popValue
      { d with nextIndex := siamesePacketNumInc d.nextIndex } = .ok symbol
        { d with
          nextIndex := siamesePacketNumInc d.nextIndex
          symbolsAhead := ⟨d.symbolsAhead.c.erase symbol⟩ } :=
    Method.zoom_of_ok (MovablePriorityQueue.popValue_of_top h)
  rw [getChunk, Method.bind_of_ok (Method.modify_apply _ d), Method.bind_of_ok hpop]
  rfl

/-- The decoder once an original chunk was received or recovered. -/
def withChunk (d : ContinuousStreamDecoder S) (symbol : Symbol) : ContinuousStreamDecoder S :=
  { d with
    symbolsAhead :=
      if symbol.2 < d.nextIndex then d.symbolsAhead else ⟨d.symbolsAhead.c ++ [symbol]⟩
    processed := d.processed ++ [symbol.2] }

theorem withChunk_of_late {d : ContinuousStreamDecoder S} {symbol : Symbol}
    (hlate : symbol.2 < d.nextIndex) : (d.withChunk symbol).symbolsAhead = d.symbolsAhead :=
  if_pos hlate

theorem withChunk_of_ahead {d : ContinuousStreamDecoder S} {symbol : Symbol}
    (hahead : ¬symbol.2 < d.nextIndex) :
    (d.withChunk symbol).symbolsAhead.c = d.symbolsAhead.c ++ [symbol] :=
  congrArg MovablePriorityQueue.c (if_neg hahead)

@[simp] theorem withChunk_processed (d : ContinuousStreamDecoder S) (symbol : Symbol) :
    (d.withChunk symbol).processed = d.processed ++ [symbol.2] := rfl

theorem processOriginalChunk_apply (data : Bytes) (index : Nat) (d : ContinuousStreamDecoder S) :
    processOriginalChunk data index d = .ok () (d.withChunk (data, index)) := by
  rw [processOriginalChunk, Method.bind_of_ok (Method.modify_apply _ d),
    Method.bind_of_ok (Method.get_apply _)]
  unfold withChunk
  by_cases hlate : index < d.nextIndex
  · rw [if_pos hlate, if_pos hlate]
    rfl
  · rw [if_neg hlate, if_neg hlate]
    rfl

/-- The decoder once some chunks were recovered. -/
theorem forEach_processOriginalChunk (chunks : List Symbol) (d : ContinuousStreamDecoder S) :
    Method.forEach (fun chunk => processOriginalChunk chunk.1 chunk.2) chunks d =
      .ok () (chunks.foldl withChunk d) := by
  induction chunks generalizing d with
  | nil => rfl
  | cons chunk chunks ih =>
      rw [Method.forEach, Method.bind_of_ok (processOriginalChunk_apply _ _ d)]
      exact ih (d.withChunk chunk)

section chunks

variable (chunks : List Symbol) (d : ContinuousStreamDecoder S)

@[simp] theorem foldl_withChunk_decoder : (chunks.foldl withChunk d).decoder = d.decoder := by
  induction chunks generalizing d with
  | nil => rfl
  | cons chunk chunks ih => exact ih (d.withChunk chunk)

@[simp] theorem foldl_withChunk_processed :
    (chunks.foldl withChunk d).processed = d.processed ++ chunks.map (·.2) := by
  induction chunks generalizing d with
  | nil => exact (List.append_nil _).symm
  | cons chunk chunks ih => simp [ih]

/-- Chunks do not care about the codec. -/
theorem foldl_withChunk_onDecoder (x : StreamFecDecoder S) :
    chunks.foldl withChunk { d with decoder := x } =
      { chunks.foldl withChunk d with decoder := x } := by
  induction chunks generalizing d with
  | nil => rfl
  | cons chunk chunks ih => exact ih (d.withChunk chunk)

end chunks

/-- One pass of the decode loop. -/
theorem decodeLoop_ok_iff {rounds : Nat} {d d' : ContinuousStreamDecoder S} :
    decodeLoop (rounds + 1) d = .ok () d' ↔
      ∃ ready x, StreamFecDecoder.hasData d.decoder = .ok ready x ∧
        ((ready = false ∧ d' = { d with decoder := x }) ∨
          (ready = true ∧ ∃ chunks y, StreamFecDecoder.getNewChunks x = .ok chunks y ∧
            decodeLoop rounds (chunks.foldl withChunk { d with decoder := y }) = .ok () d')) := by
  rw [decodeLoop, Method.bind_ok_iff]
  constructor
  · rintro ⟨ready, d₁, hready, h⟩
    obtain ⟨x, hx, rfl⟩ := Method.zoom_ok_iff.mp hready
    refine ⟨ready, x, hx, ?_⟩
    cases ready with
    | false =>
        obtain ⟨-, rfl⟩ := Method.pure_ok_iff.mp h
        exact Or.inl ⟨rfl, rfl⟩
    | true =>
        obtain ⟨chunks, d₂, hchunks, h⟩ := Method.bind_ok_iff.mp h
        obtain ⟨y, hy, rfl⟩ := Method.zoom_ok_iff.mp hchunks
        rw [Method.bind_of_ok (forEach_processOriginalChunk chunks _)] at h
        exact Or.inr ⟨rfl, chunks, y, hy, h⟩
  · rintro ⟨ready, x, hx, ⟨rfl, rfl⟩ | ⟨rfl, chunks, y, hy, h⟩⟩
    · exact ⟨false, _, Method.zoom_of_ok hx, rfl⟩
    · have hchunks : onDecoder StreamFecDecoder.getNewChunks { d with decoder := x } =
          .ok chunks { d with decoder := y } := Method.zoom_of_ok hy
      refine ⟨true, _, Method.zoom_of_ok hx, ?_⟩
      rw [if_pos rfl, Method.bind_of_ok hchunks,
        Method.bind_of_ok (forEach_processOriginalChunk chunks _)]
      exact h

/-- Invariant rule for the decode loop: what asking the codec whether it is ready keeps, and
handing on the chunks that it decodes, holds after the loop. -/
theorem invariant_of_decodeLoop {I : ContinuousStreamDecoder S → Prop}
    (hready : ∀ d, I d → ((S.decoderIsReady d.decoder.decoder).1 = .success ∨
      (S.decoderIsReady d.decoder.decoder).1 = .needMoreData) →
      I { d with decoder := ⟨(S.decoderIsReady d.decoder.decoder).2⟩ })
    (hdecode : ∀ d, I d → (S.decode d.decoder.decoder).1 = .success →
      I (((S.decode d.decoder.decoder).2.1.map fun packet => (packet.2, packet.1)).foldl withChunk
        { d with decoder := ⟨(S.decode d.decoder.decoder).2.2⟩ })) :
    ∀ (rounds : Nat) {d d' : ContinuousStreamDecoder S}, I d →
      decodeLoop rounds d = .ok () d' → I d' := by
  intro rounds
  induction rounds with
  | zero => intro d d' _ h; cases h
  | succ rounds ih =>
      intro d d' hd h
      obtain ⟨ready, x, hx, hpass⟩ := decodeLoop_ok_iff.mp h
      have hasked := hready d hd (StreamFecDecoder.hasData_answered hx)
      rw [← StreamFecDecoder.hasData_ok hx] at hasked
      rcases hpass with ⟨-, rfl⟩ | ⟨-, chunks, y, hchunks, h⟩
      · exact hasked
      · obtain ⟨hsuccess, rfl, rfl⟩ := StreamFecDecoder.getNewChunks_ok hchunks
        exact ih (hdecode _ hasked hsuccess) h

theorem processSymbol_ok_iff {rounds : Nat} {data : Bytes} {index : Nat}
    {d d' : ContinuousStreamDecoder S} : processSymbol rounds data index d = .ok () d' ↔
      ∃ x, StreamFecDecoder.processSymbol data index d.decoder = .ok () x ∧
        decodeLoop rounds (if index = packetIndexFec then { d with decoder := x }
          else withChunk { d with decoder := x } (data, index)) = .ok () d' := by
  rw [processSymbol, Method.bind_ok_iff]
  constructor
  · rintro ⟨_, d₁, hsymbol, h⟩
    obtain ⟨x, hx, rfl⟩ := Method.zoom_ok_iff.mp hsymbol
    refine ⟨x, hx, ?_⟩
    by_cases hfec : index = packetIndexFec
    · rw [if_neg (not_not.mpr hfec)] at h
      rw [if_pos hfec]
      exact h
    · rw [if_pos hfec, Method.bind_of_ok (processOriginalChunk_apply data index _)] at h
      rw [if_neg hfec]
      exact h
  · rintro ⟨x, hx, h⟩
    refine ⟨(), _, Method.zoom_of_ok hx, ?_⟩
    by_cases hfec : index = packetIndexFec
    · rw [if_pos hfec] at h
      rw [if_neg (not_not.mpr hfec)]
      exact h
    · rw [if_neg hfec] at h
      rw [if_pos hfec, Method.bind_of_ok (processOriginalChunk_apply data index _)]
      exact h

/-! ### Rounds do not matter -/

/-- However many rounds two runs of the loop are given, they end alike where they end. -/
theorem related_decodeLoop : ∀ rounds rounds',
    Method.Related Eq Eq (decodeLoop rounds : Method Fault (ContinuousStreamDecoder S) Unit)
      (decodeLoop rounds') := by
  intro rounds
  induction rounds with
  | zero =>
      intro rounds' d d' t t' a a' _ h
      cases h
  | succ rounds ih =>
      intro rounds'
      cases rounds' with
      | zero =>
          intro d d' t t' a a' _ _ h
          cases h
      | succ rounds' =>
          refine .bind (.of_eq _) fun ready => .ite ?_ (.of_eq _)
          refine .bind (.of_eq _) fun chunks => ?_
          exact .bind (.of_eq _) fun _ => ih rounds'

theorem related_processSymbol (rounds rounds' : Nat) (data : Bytes) (index : Nat) :
    Method.Related Eq Eq
      (processSymbol rounds data index : Method Fault (ContinuousStreamDecoder S) Unit)
      (processSymbol rounds' data index) := by
  refine .bind (.of_eq _) fun _ => .ite ?_ (related_decodeLoop rounds rounds')
  exact .bind (.of_eq _) fun _ => related_decodeLoop rounds rounds'

end ContinuousStreamDecoder

/-! ## Encoder -/

/-- `ReliabilityLevel` -/
inductive ReliabilityLevel where
  /-- If chunks stop arriving, should send FEC symbols -/
  | underRatio
  /-- Could send FEC symbols if nothing better to do -/
  | atRatio
  /-- No sense in sending extra symbols -/
  | allAcked
  deriving DecidableEq, Repr

structure ContinuousStreamEncoder (S : Siamese) where
  pending : List Bytes := []
  encoder : StreamFecEncoder S := {}
  receiverExpects : Nat := 0
  nextIndex : Nat := 0
  /-- If the ratio is f/d, given a segment of d chunks, FEC packet number k, where
  0 ≤ k < f, goes just before chunk number ceil((k+1)d/f). Offset by 1:
  0 1 2 | 3 1 2 | 3 1 2 | … -/
  segmentChunkIndex1 : Nat := 0
  segmentFecIndex : Nat := 0

namespace ContinuousStreamEncoder

variable {S : Siamese}

/-- A call on `m_encoder`. -/
def onEncoder {α : Type} (m : Method Fault (StreamFecEncoder S) α) :
    Method Fault (ContinuousStreamEncoder S) α :=
  Method.zoom encoder (fun x e => { e with encoder := x }) m

/-- A call on `m_pending`. -/
def onPending {α : Type} (m : Method Fault (List Bytes) α) :
    Method Fault (ContinuousStreamEncoder S) α :=
  Method.zoom pending (fun q e => { e with pending := q }) m

def queueChunk (chunk : Bytes) : Method Fault (ContinuousStreamEncoder S) Unit :=
  modify fun e => { e with pending := e.pending ++ [chunk] }

def reliabilityLevel (ratio : Rat) (e : ContinuousStreamEncoder S) : ReliabilityLevel :=
  if e.receiverExpects = e.nextIndex then .allAcked
  else if e.segmentChunkIndex1 % ratio.den = 0 ∧ e.segmentFecIndex = 0 then .atRatio
  else .underRatio

def generateFecSymbol : Method Fault (ContinuousStreamEncoder S) Symbol :=
  onEncoder StreamFecEncoder.generateFecSymbol

def isNextSymbolFec (ratio : Rat) (e : ContinuousStreamEncoder S) : Bool :=
  let fecBefore := ceil (((e.segmentFecIndex + 1 : Nat) : Rat) / ratio)
  decide ((e.segmentChunkIndex1 : Int) = fecBefore)

def hasData (ratio : Rat) (e : ContinuousStreamEncoder S) : Bool :=
  !e.pending.isEmpty || e.isNextSymbolFec ratio

/-- Within the current segment, determine which to send: original data chunk
`m_segment_chunk_index1` or recovery symbol `m_segment_fec_index`. -/
def getSymbol (ratio : Rat) : Method Fault (ContinuousStreamEncoder S) Symbol := do
  let e ← get
  if e.isNextSymbolFec ratio then
    modify fun e => { e with segmentFecIndex := (e.segmentFecIndex + 1) % ratio.num.toNat }
    generateFecSymbol
  else
    Method.lift (enforce (!e.pending.isEmpty) "!m_pending.empty()")
    let chunk ← onPending popFront
    let index ← onEncoder (StreamFecEncoder.addChunk chunk)
    modify fun e => { e with
      nextIndex := siamesePacketNumInc index
      segmentChunkIndex1 := e.segmentChunkIndex1 % ratio.den + 1 }
    pure (chunk, index)

def processAck (message : Bytes) : Method Fault (ContinuousStreamEncoder S) Unit := do
  let expects ← onEncoder (StreamFecEncoder.processAck message)
  modify fun e => { e with receiverExpects := expects }

/-- The loop `while(has_data()) get_symbol()`: the symbols it got. -/
def drainSymbols (ratio : Rat) : Nat → Method Fault (ContinuousStreamEncoder S) (List Symbol)
  | 0 => throw .diverges
  | rounds + 1 => do
      let e ← get
      if e.hasData ratio then
        let symbol ← getSymbol ratio
        let rest ← drainSymbols ratio rounds
        pure (symbol :: rest)
      else
        pure []

/-! ### What the calls do -/

/-- The encoder once a recovery symbol was got. -/
def recovered (ratio : Rat) (e : ContinuousStreamEncoder S) (x : StreamFecEncoder S) :
    ContinuousStreamEncoder S :=
  { e with
    encoder := x
    segmentFecIndex := (e.segmentFecIndex + 1) % ratio.num.toNat }

/-- The encoder once the chunk in front was got under `index`. -/
def added (ratio : Rat) (e : ContinuousStreamEncoder S) (x : StreamFecEncoder S) (index : Nat) :
    ContinuousStreamEncoder S :=
  { e with
    pending := e.pending.tail
    encoder := x
    nextIndex := siamesePacketNumInc index
    segmentChunkIndex1 := e.segmentChunkIndex1 % ratio.den + 1 }

/-- What a `get_symbol` that returns did: it generated a recovery symbol, or it added
the chunk in front. -/
theorem getSymbol_ok_iff {ratio : Rat} {e e' : ContinuousStreamEncoder S} {symbol : Symbol} :
    getSymbol ratio e = .ok symbol e' ↔
      (e.isNextSymbolFec ratio = true ∧ ∃ x,
        StreamFecEncoder.generateFecSymbol e.encoder = .ok symbol x ∧ e' = e.recovered ratio x) ∨
      (e.isNextSymbolFec ratio = false ∧ ∃ rest x,
        e.pending = symbol.1 :: rest ∧
        StreamFecEncoder.addChunk symbol.1 e.encoder = .ok symbol.2 x ∧
        e' = e.added ratio x symbol.2) := by
  rw [getSymbol, Method.bind_of_ok (Method.get_apply e)]
  cases hfec : e.isNextSymbolFec ratio with
  | true =>
      rw [if_pos rfl, Method.bind_of_ok (Method.modify_apply _ e)]
      unfold generateFecSymbol onEncoder
      rw [Method.zoom_ok_iff]
      constructor
      · rintro ⟨x, hx, rfl⟩
        exact Or.inl ⟨rfl, x, hx, rfl⟩
      · rintro (⟨-, x, hx, rfl⟩ | ⟨hfalse, -⟩)
        · exact ⟨x, hx, rfl⟩
        · cases hfalse
  | false =>
      rw [if_neg Bool.false_ne_true]
      cases hpending : e.pending with
      | nil =>
          -- `ENFORCE` refuses
          show EStateM.Result.error _ _ = _ ↔ _
          simp
      | cons chunk rest =>
          have hpop : onPending popFront e = .ok chunk { e with pending := rest } :=
            Method.zoom_of_ok (popFront_ok_iff.mpr hpending)
          show (onPending popFront >>= _ : Method Fault (ContinuousStreamEncoder S) Symbol) e = _ ↔ _
          rw [Method.bind_of_ok hpop, Method.bind_ok_iff]
          constructor
          · rintro ⟨index, e₁, hadd, h⟩
            obtain ⟨x, hx, rfl⟩ := Method.zoom_ok_iff.mp hadd
            cases h
            refine Or.inr ⟨rfl, rest, x, rfl, hx, ?_⟩
            unfold added
            rw [hpending]
            rfl
          · rintro (⟨htrue, -⟩ | ⟨-, rest', x, hcons, hx, rfl⟩)
            · cases htrue
            · cases hcons
              refine ⟨symbol.2, _, Method.zoom_of_ok hx, ?_⟩
              unfold added
              rw [hpending]
              rfl

/-- A `get_symbol` that has nothing to send, or whose codec refuses, fails an `ENFORCE`. -/
theorem getSymbol_outcome (ratio : Rat) (e : ContinuousStreamEncoder S) :
    (∃ symbol e', getSymbol ratio e = .ok symbol e') ∨
      ∃ expr e', getSymbol ratio e = .error (.enforce expr) e' := by
  rw [getSymbol, Method.bind_of_ok (Method.get_apply e)]
  cases hfec : e.isNextSymbolFec ratio with
  | true =>
      rw [if_pos rfl, Method.bind_of_ok (Method.modify_apply _ e)]
      unfold generateFecSymbol onEncoder
      by_cases hsuccess : (S.encode e.encoder.encoder).1 = .success
      · exact Or.inl ⟨_, _, Method.zoom_of_ok
          (StreamFecEncoder.generateFecSymbol_ok_iff.mpr ⟨hsuccess, rfl, rfl⟩)⟩
      · exact Or.inr ⟨_, _, Method.zoom_of_error
          (StreamFecEncoder.generateFecSymbol_of_refused hsuccess)⟩
  | false =>
      rw [if_neg Bool.false_ne_true]
      cases hpending : e.pending with
      | nil => exact Or.inr ⟨_, _, rfl⟩
      | cons chunk rest =>
          have hpop : onPending popFront e = .ok chunk { e with pending := rest } :=
            Method.zoom_of_ok (popFront_ok_iff.mpr hpending)
          have hlift : (Method.lift (enforce (!(chunk :: rest).isEmpty) "!m_pending.empty()") :
              Method Fault (ContinuousStreamEncoder S) Unit) e = .ok () e := rfl
          rw [Method.bind_of_ok hlift, Method.bind_of_ok hpop]
          by_cases hsuccess : (S.encoderAdd e.encoder.encoder chunk).1 = .success
          · have hadd : onEncoder (StreamFecEncoder.addChunk chunk) { e with pending := rest } =
                .ok _ _ := Method.zoom_of_ok
              (StreamFecEncoder.addChunk_ok_iff.mpr ⟨hsuccess, rfl, rfl⟩)
            rw [Method.bind_of_ok hadd]
            exact Or.inl ⟨_, _, rfl⟩
          · have hadd : onEncoder (StreamFecEncoder.addChunk chunk) { e with pending := rest } =
                .error _ _ := Method.zoom_of_error (StreamFecEncoder.addChunk_of_refused hsuccess)
            rw [Method.bind_of_error hadd]
            exact Or.inr ⟨_, _, rfl⟩

theorem processAck_ok_iff {message : Bytes} {e e' : ContinuousStreamEncoder S} :
    processAck message e = .ok () e' ↔ (S.encoderAck e.encoder.encoder message).1 = .success ∧
      e' = { e with
        encoder := { e.encoder with encoder := (S.encoderAck e.encoder.encoder message).2.2 }
        receiverExpects := (S.encoderAck e.encoder.encoder message).2.1 } := by
  unfold processAck onEncoder
  rw [Method.bind_ok_iff]
  constructor
  · rintro ⟨expects, e₁, hack, h⟩
    obtain ⟨x, hx, rfl⟩ := Method.zoom_ok_iff.mp hack
    obtain ⟨hsuccess, rfl, rfl⟩ := StreamFecEncoder.processAck_ok_iff.mp hx
    cases h
    exact ⟨hsuccess, rfl⟩
  · rintro ⟨hsuccess, rfl⟩
    exact ⟨_, _, Method.zoom_of_ok
      (StreamFecEncoder.processAck_ok_iff.mpr ⟨hsuccess, rfl, rfl⟩), rfl⟩

theorem processAck_ok {message : Bytes} {e e' : ContinuousStreamEncoder S}
    (h : processAck message e = .ok () e') :
    ∃ expects, e' = { e with
      encoder := { e.encoder with encoder := (S.encoderAck e.encoder.encoder message).2.2 }
      receiverExpects := expects } :=
  ⟨_, (processAck_ok_iff.mp h).2⟩

/-- One pass of the loop over `has_data`. -/
theorem drainSymbols_ok_iff {ratio : Rat} {rounds : Nat} {e e' : ContinuousStreamEncoder S}
    {symbols : List Symbol} : drainSymbols ratio (rounds + 1) e = .ok symbols e' ↔
      (e.hasData ratio = false ∧ symbols = [] ∧ e' = e) ∨
      (e.hasData ratio = true ∧ ∃ symbol e₁ rest, getSymbol ratio e = .ok symbol e₁ ∧
        drainSymbols ratio rounds e₁ = .ok rest e' ∧ symbols = symbol :: rest) := by
  rw [drainSymbols, Method.bind_of_ok (Method.get_apply e)]
  cases hdata : e.hasData ratio with
  | false =>
      rw [if_neg Bool.false_ne_true, Method.pure_ok_iff]
      simp [eq_comm]
  | true =>
      rw [if_pos rfl, Method.bind_ok_iff]
      constructor
      · rintro ⟨symbol, e₁, hsymbol, h⟩
        obtain ⟨rest, e₂, hrest, h⟩ := Method.bind_ok_iff.mp h
        obtain ⟨rfl, rfl⟩ := Method.pure_ok_iff.mp h
        exact Or.inr ⟨rfl, symbol, e₁, rest, hsymbol, hrest, rfl⟩
      · rintro (⟨hfalse, -⟩ | ⟨-, symbol, e₁, rest, hsymbol, hrest, rfl⟩)
        · cases hfalse
        · refine ⟨symbol, e₁, hsymbol, ?_⟩
          rw [Method.bind_of_ok hrest]
          rfl

/-- An exception in one pass of the loop, or behind it. -/
theorem drainSymbols_error_iff {ratio : Rat} {rounds : Nat} {e e' : ContinuousStreamEncoder S}
    {fault : Fault} : drainSymbols ratio (rounds + 1) e = .error fault e' ↔
      e.hasData ratio = true ∧ (getSymbol ratio e = .error fault e' ∨
        ∃ symbol e₁, getSymbol ratio e = .ok symbol e₁ ∧
          drainSymbols ratio rounds e₁ = .error fault e') := by
  rw [drainSymbols, Method.bind_of_ok (Method.get_apply e)]
  cases hdata : e.hasData ratio with
  | false =>
      rw [if_neg Bool.false_ne_true]
      simp
  | true =>
      rw [if_pos rfl, Method.bind_apply]
      cases hcall : getSymbol ratio e with
      | error fault' e₁ => simp
      | ok symbol e₁ =>
          dsimp only
          rw [Method.bind_apply]
          cases hrest : drainSymbols ratio rounds e₁ with
          | error fault' e₂ => simp [hrest]
          | ok rest e₂ => simp [hrest]

/-- However many rounds two runs of the loop are given, they end alike where they end. -/
theorem related_drainSymbols (ratio : Rat) : ∀ rounds rounds',
    Method.Related Eq Eq (drainSymbols ratio rounds :
        Method Fault (ContinuousStreamEncoder S) (List Symbol))
      (drainSymbols ratio rounds') := by
  intro rounds
  induction rounds with
  | zero =>
      intro rounds' e e' t t' a a' _ h
      cases h
  | succ rounds ih =>
      intro rounds'
      cases rounds' with
      | zero =>
          intro e e' t t' a a' _ _ h
          cases h
      | succ rounds' =>
          refine .bind (.of_eq _) fun e => .ite ?_ (.of_eq _)
          refine .bind (.of_eq _) fun symbol => ?_
          exact .bind (ih rounds') fun rest => .of_eq _

end ContinuousStreamEncoder

/-! ## Relay -/

structure ContinuousStream (S : Siamese) where
  decoder : ContinuousStreamDecoder S := {}
  encoder : ContinuousStreamEncoder S := {}

namespace ContinuousStream

variable {S : Siamese}

/-- A call on `m_decoder`. -/
def onDecoder {α : Type} (m : Method Fault (ContinuousStreamDecoder S) α) :
    Method Fault (ContinuousStream S) α :=
  Method.zoom decoder (fun x s => { s with decoder := x }) m

/-- A call on `m_encoder`. -/
def onEncoder {α : Type} (m : Method Fault (ContinuousStreamEncoder S) α) :
    Method Fault (ContinuousStream S) α :=
  Method.zoom encoder (fun x s => { s with encoder := x }) m

/-- The loop that queues every chunk the decoder has. Every pass takes a chunk out of
the decoder's queue, so `rounds` beyond the length of the queue never run out. -/
def relayLoop : Nat → Method Fault (ContinuousStream S) Unit
  | 0 => throw .diverges
  | rounds + 1 => do
      let s ← get
      if s.decoder.hasData then
        let chunk ← onDecoder ContinuousStreamDecoder.getChunk
        onEncoder (ContinuousStreamEncoder.queueChunk chunk)
        relayLoop rounds
      else
        pure ()

def relayChunks : Method Fault (ContinuousStream S) Unit := do
  let s ← get
  relayLoop (s.decoder.symbolsAhead.c.length + 1)

/-- The stream once a chunk was passed on. -/
def passOn (s : ContinuousStream S) (symbol : Symbol) : ContinuousStream S where
  decoder := s.decoder.handOut symbol
  encoder := { s.encoder with pending := s.encoder.pending ++ [symbol.1] }

theorem relayLoop_of_top {s : ContinuousStream S} {symbol : Symbol}
    (htop : s.decoder.symbolsAhead.top = some symbol) (hnext : symbol.2 = s.decoder.nextIndex)
    (rounds : Nat) : relayLoop (rounds + 1) s = relayLoop rounds (s.passOn symbol) := by
  have hchunk : onDecoder ContinuousStreamDecoder.getChunk s =
      .ok symbol.1 { s with decoder := s.decoder.handOut symbol } :=
    Method.zoom_of_ok (ContinuousStreamDecoder.getChunk_of_top htop)
  rw [relayLoop, Method.bind_of_ok (Method.get_apply s),
    if_pos (ContinuousStreamDecoder.hasData_iff.mpr ⟨symbol, htop, hnext⟩),
    Method.bind_of_ok hchunk]
  rfl

/-- The loop ends, with nothing next in order, and keeps what every pass keeps. -/
theorem relayLoop_spec {I : ContinuousStream S → Prop}
    (preserved : ∀ s symbol, I s → s.decoder.symbolsAhead.top = some symbol →
      symbol.2 = s.decoder.nextIndex → I (s.passOn symbol)) :
    ∀ (rounds : Nat) (s : ContinuousStream S), I s →
      s.decoder.symbolsAhead.c.length < rounds →
      ∃ s', relayLoop rounds s = .ok () s' ∧ I s' ∧ s'.decoder.hasData = false := by
  intro rounds
  induction rounds with
  | zero => intro s _ hlen; exact absurd hlen (Nat.not_lt_zero _)
  | succ rounds ih =>
      intro s hI hlen
      cases hdata : s.decoder.hasData with
      | false =>
          refine ⟨s, ?_, hI, hdata⟩
          rw [relayLoop, Method.bind_of_ok (Method.get_apply s), hdata]
          rfl
      | true =>
          obtain ⟨symbol, htop, hnext⟩ := ContinuousStreamDecoder.hasData_iff.mp hdata
          have hshorter : (s.passOn symbol).decoder.symbolsAhead.c.length < rounds := by
            have := PriorityBag.length_erase_top htop
            show (s.decoder.symbolsAhead.c.erase symbol).length < rounds
            omega
          obtain ⟨s', hloop, hI', hend⟩ :=
            ih (s.passOn symbol) (preserved s symbol hI htop hnext) hshorter
          exact ⟨s', by rw [relayLoop_of_top htop hnext, hloop], hI', hend⟩

theorem relayChunks_spec {I : ContinuousStream S → Prop} {s : ContinuousStream S}
    (preserved : ∀ s symbol, I s → s.decoder.symbolsAhead.top = some symbol →
      symbol.2 = s.decoder.nextIndex → I (s.passOn symbol)) (h : I s) :
    ∃ s', relayChunks s = .ok () s' ∧ I s' ∧ s'.decoder.hasData = false := by
  obtain ⟨s', hloop, hI, hend⟩ := relayLoop_spec preserved
    (s.decoder.symbolsAhead.c.length + 1) s h (Nat.lt_succ_self _)
  refine ⟨s', ?_, hI, hend⟩
  rw [relayChunks, Method.bind_of_ok (Method.get_apply s)]
  exact hloop

end ContinuousStream

end FecRelay
