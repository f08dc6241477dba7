import FecRelay.Codec.Windowing
import FecRelay.Draining

/-!
# The order of a stream's symbols

At the shipped ratio and without acks, the originals that an encoder returns are the
chunks in the order they were queued in, numbered from 0, with two recovery symbols to
five of them, each right after the original that it became due with.
-/

namespace FecRelay.ContinuousStreamEncoder

open FecRelay.Base

variable {S : Siamese} {view : S.Encoder → SiameseEncoder} {e e' : ContinuousStreamEncoder S}

def originals (symbols : List Symbol) : List Symbol :=
  symbols.filter fun symbol => symbol.2 ≠ packetIndexFec

def recoveries (symbols : List Symbol) : List Symbol :=
  symbols.filter fun symbol => symbol.2 = packetIndexFec

/-- The chunks that were queued. -/
def chunks (events : List Event) : List Bytes := events.filterMap Event.chunk?

/-- The symbols that were got. -/
def symbols (events : List Event) : List Symbol := events.filterMap Event.symbol?

/-- The symbols got so far are in order, those that are left can be got, and the encoder
knows how far it is. -/
structure KeepsOrder (events : List Event) (e : ContinuousStreamEncoder S) : Prop where
  originals : originals (symbols events) <+: (chunks events).zipIdx
  recovery : ∀ before data after, symbols events = before ++ (data, packetIndexFec) :: after →
    ∃ earlier chunk index, before = earlier ++ [(chunk, index)] ∧ index ≠ packetIndexFec ∧
      index + 1 = Pacing.due 2 5 (recoveries before).length
  returns : e.hasData fecRatio = true → ∃ symbol e', getSymbol fecRatio e = .ok symbol e'
  ends : ∃ rounds rest e', drainSymbols fecRatio rounds e = .ok rest e'
  drained : e.hasData fecRatio = false →
    ContinuousStreamEncoder.originals (symbols events) = (chunks events).zipIdx ∧
      (recoveries (symbols events)).length =
        2 * (ContinuousStreamEncoder.originals (symbols events)).length / 5
  atRatio : 0 < (ContinuousStreamEncoder.originals (symbols events)).length →
    (e.reliabilityLevel fecRatio = .atRatio ↔ 5 * (recoveries (symbols events)).length =
      2 * (ContinuousStreamEncoder.originals (symbols events)).length)

/-! ## The invariant -/

@[simp] theorem chunks_snoc (events : List Event) (x : Event) :
    chunks (events ++ [x]) = chunks events ++ x.chunk?.toList := by
  unfold chunks
  rw [List.filterMap_append]
  cases x <;> rfl

@[simp] theorem symbols_snoc (events : List Event) (x : Event) :
    symbols (events ++ [x]) = symbols events ++ x.symbol?.toList := by
  unfold symbols
  rw [List.filterMap_append]
  cases x <;> rfl

@[simp] theorem originals_snoc (symbols : List Symbol) (symbol : Symbol) :
    originals (symbols ++ [symbol]) =
      originals symbols ++ if symbol.2 ≠ packetIndexFec then [symbol] else [] := by
  unfold originals
  rw [List.filter_append]
  simp [List.filter_cons]

@[simp] theorem recoveries_snoc (symbols : List Symbol) (symbol : Symbol) :
    recoveries (symbols ++ [symbol]) =
      recoveries symbols ++ if symbol.2 = packetIndexFec then [symbol] else [] := by
  unfold recoveries
  rw [List.filter_append]
  simp [List.filter_cons]

/-- What holds of the symbols got and the encoder that is left, while nothing is acked. -/
structure Ordered (view : S.Encoder → SiameseEncoder) (symbols : List Symbol)
    (e : ContinuousStreamEncoder S) : Prop where
  paced : e.Paced fecRatio
  window : (view e.encoder.encoder).Holds e.encoder.added.length 0
  expects : e.receiverExpects = 0
  next : e.nextIndex = e.encoder.added.length
  originals : originals symbols = e.encoder.added.zipIdx
  recoveries : (recoveries symbols).length = e.encoder.emitted.length
  /-- an original was last if no recovery symbol has become due since -/
  last : 0 < e.encoder.added.length →
    e.encoder.emitted.length = (e.encoder.added.length - 1) * 2 / 5 →
    ∃ earlier chunk, symbols = earlier ++ [(chunk, e.encoder.added.length - 1)]
  recovery : ∀ before data after, symbols = before ++ (data, packetIndexFec) :: after →
    ∃ earlier chunk index, before = earlier ++ [(chunk, index)] ∧ index ≠ packetIndexFec ∧
      index + 1 = Pacing.due 2 5 (ContinuousStreamEncoder.recoveries before).length

theorem ordered_init (hlaw : S.Windowed view) :
    Ordered view [] ({} : ContinuousStreamEncoder S) where
  paced := paced_init
  window := by
    show (view S.encoderCreate).Holds 0 0
    rw [hlaw.create]
    exact SiameseEncoder.holds_init
  expects := rfl
  next := rfl
  originals := rfl
  recoveries := rfl
  last h := absurd h (Nat.lt_irrefl 0)
  recovery before data after h := by simp at h

/-- A list that ends in an element that is not a recovery symbol has none at its end. -/
theorem split_snoc {symbols before after : List Symbol} {symbol : Symbol} {data : Bytes}
    (h : symbols ++ [symbol] = before ++ (data, packetIndexFec) :: after) :
    (after = [] ∧ symbols = before ∧ symbol = (data, packetIndexFec)) ∨
      ∃ rest, after = rest ++ [symbol] ∧ symbols = before ++ (data, packetIndexFec) :: rest := by
  rcases List.eq_nil_or_concat' after with rfl | ⟨rest, final, rfl⟩
  · obtain ⟨hsymbols, hsymbol⟩ := List.append_inj' h rfl
    exact Or.inl ⟨rfl, hsymbols, List.singleton_inj.mp hsymbol⟩
  · rw [← List.cons_append, ← List.append_assoc] at h
    obtain ⟨hsymbols, hsymbol⟩ := List.append_inj' h rfl
    obtain rfl := List.singleton_inj.mp hsymbol
    exact Or.inr ⟨rest, rfl, hsymbols⟩

theorem Ordered.onRecovery (hlaw : S.Windowed view) {symbols : List Symbol}
    (h : Ordered view symbols e) (hfew : e.encoder.added.length ≤ siameseMaxPackets)
    {x : StreamFecEncoder S} {symbol : Symbol} (hfec : e.isNextSymbolFec fecRatio = true)
    (hx : StreamFecEncoder.generateFecSymbol e.encoder = .ok symbol x) :
    Ordered view (symbols ++ [symbol]) (e.recovered fecRatio x) := by
  have hmarks := (h.paced.isNextSymbolFec_iff regular_fecRatio).mp hfec
  have hlower := h.paced.lower
  obtain ⟨hsuccess, hsymbol, hx⟩ := StreamFecEncoder.generateFecSymbol_ok_iff.mp hx
  have hadded : x.added = e.encoder.added := by rw [hx]
  have hemitted : x.emitted = e.encoder.emitted ++ [symbol.1] := by rw [hx, hsymbol]
  have hindex : symbol.2 = packetIndexFec := by rw [hsymbol]
  have hpaced := h.paced.recovered hmarks hadded hemitted
  simp only [numerator_fecRatio, den_fecRatio, Pacing.quota] at hmarks hlower
  refine ⟨hpaced, ?_, h.expects, ?_, ?_, ?_, ?_, ?_⟩
  · show (view x.encoder).Holds x.added.length 0
    rw [hadded, hx]
    show (view (S.encode e.encoder.encoder).2.2).Holds e.encoder.added.length 0
    rw [hlaw.of_encode hsuccess]
    exact h.window.encode
  · show e.nextIndex = x.added.length
    rw [hadded]
    exact h.next
  · show _ = x.added.zipIdx
    rw [originals_snoc, if_neg (not_not.mpr hindex), List.append_nil, hadded]
    exact h.originals
  · show _ = x.emitted.length
    rw [recoveries_snoc, if_pos hindex, hemitted, List.length_append, List.length_append,
      h.recoveries]
    rfl
  · -- the recovery symbol was due, so none is missing
    intro _ hlast
    have hlast : x.emitted.length = (x.added.length - 1) * 2 / 5 := hlast
    rw [hadded, hemitted, List.length_append, List.length_singleton] at hlast
    omega
  · intro before data after hsplit
    rcases split_snoc hsplit with ⟨-, rfl, -⟩ | ⟨rest, rfl, hbefore⟩
    · have hn : 0 < e.encoder.added.length := by omega
      obtain ⟨earlier, chunk, heq⟩ := h.last hn (by omega)
      refine ⟨earlier, chunk, e.encoder.added.length - 1, heq, ?_, ?_⟩
      · unfold siameseMaxPackets at hfew
        unfold packetIndexFec
        omega
      · rw [h.recoveries]
        unfold Pacing.due
        omega
    · exact h.recovery before data rest hbefore

theorem Ordered.onChunk (hlaw : S.Windowed view) {symbols : List Symbol}
    (h : Ordered view symbols e) (hfew : e.encoder.added.length < siameseMaxPackets)
    {x : StreamFecEncoder S} {symbol : Symbol} (hfec : e.isNextSymbolFec fecRatio = false)
    (hx : StreamFecEncoder.addChunk symbol.1 e.encoder = .ok symbol.2 x) :
    Ordered view (symbols ++ [symbol]) (e.added fecRatio x symbol.2) := by
  have hquota : ¬_ := fun hmarks => Bool.false_ne_true
    (hfec.symm.trans ((h.paced.isNextSymbolFec_iff regular_fecRatio).mpr hmarks))
  obtain ⟨hsuccess, hnum, hx⟩ := StreamFecEncoder.addChunk_ok_iff.mp hx
  have hadded : x.added = e.encoder.added ++ [symbol.1] := by rw [hx]
  have hemitted : x.emitted = e.encoder.emitted := by rw [hx]
  have hpaced := h.paced.added (not_lt.mp hquota) hadded hemitted symbol.2
  have hupper := h.paced.upper
  obtain ⟨hroom, hview⟩ := hlaw.of_add hsuccess
  have hlength : (e.added fecRatio x symbol.2).encoder.added.length =
      e.encoder.added.length + 1 := by
    show x.added.length = _
    rw [hadded, List.length_append, List.length_singleton]
  have hindex : symbol.2 = e.encoder.added.length := by
    rw [hnum, hroom, h.window.window.nextColumn]
    unfold siameseMaxPackets at hfew
    unfold siamesePacketNumCount
    omega
  have hne : symbol.2 ≠ packetIndexFec := by
    unfold siameseMaxPackets at hfew
    unfold packetIndexFec
    omega
  simp only [numerator_fecRatio, den_fecRatio, Pacing.quota] at hquota hupper
  refine ⟨hpaced, ?_, h.expects, ?_, ?_, ?_, ?_, ?_⟩
  · rw [hlength]
    show (view x.encoder).Holds _ 0
    rw [hx]
    show (view (S.encoderAdd e.encoder.encoder symbol.1).2.2).Holds _ 0
    rw [hview]
    exact h.window.add (hlaw.add_success_iff.mp hsuccess).2 _
  · rw [hlength]
    show siamesePacketNumInc symbol.2 = _
    rw [hindex]
    apply siamesePacketNumInc_of_lt
    unfold siameseMaxPackets at hfew
    unfold siamesePacketNumCount
    omega
  · show _ = x.added.zipIdx
    rw [originals_snoc, if_pos hne, hadded, List.zipIdx_append, h.originals, Nat.zero_add,
      ← hindex]
    rfl
  · show _ = x.emitted.length
    rw [recoveries_snoc, if_neg hne, List.append_nil, hemitted]
    exact h.recoveries
  · intro _ _
    rw [hlength, Nat.add_sub_cancel, ← hindex]
    exact ⟨symbols, symbol.1, rfl⟩
  · intro before data after hsplit
    rcases split_snoc hsplit with ⟨-, -, rfl⟩ | ⟨rest, rfl, hbefore⟩
    · exact absurd rfl hne
    · exact h.recovery before data rest hbefore

/-- The chunks that an encoder may be given: the codec takes them, and holds them all. -/
structure Modest (events : List Event) : Prop where
  unacked : ∀ x ∈ events, x.message? = none
  acceptable : ∀ chunk ∈ chunks events, SiameseEncoder.Acceptable chunk
  few : (chunks events).length < siameseMaxPackets

theorem Modest.of_snoc {events : List Event} {x : Event} (h : Modest (events ++ [x])) :
    Modest events where
  unacked y hy := h.unacked y (List.mem_append_left _ hy)
  acceptable chunk hchunk := h.acceptable chunk (by rw [chunks_snoc]; simp [hchunk])
  few := by
    have := h.few
    rw [chunks_snoc, List.length_append] at this
    omega

theorem Modest.added_lt {events : List Event} (h : Modest events)
    (hrun : Run (Step fecRatio) {} events e) :
    e.encoder.added.length + e.pending.length < siameseMaxPackets := by
  have hfew := h.few
  have hinput : e.encoder.added ++ e.pending = chunks events := input_of_run hrun
  rwa [← hinput, List.length_append] at hfew

theorem ordered_of_run (hlaw : S.Windowed view) {events : List Event}
    (hrun : Run (Step fecRatio) {} events e) (h : Modest events) :
    Ordered view (symbols events) e := by
  induction hrun with
  | nil => exact ordered_init hlaw
  | @snoc e₁ e₂ events x hbefore hstep ih =>
      have he := ih h.of_snoc
      have hfew := h.of_snoc.added_lt hbefore
      rw [symbols_snoc]
      cases hstep with
      | queueChunk chunk hcall =>
          cases hcall
          rw [show (Event.queueChunk chunk).symbol?.toList = [] from rfl, List.append_nil]
          exact { he with paced := he.paced }
      | processAck message _ =>
          have := h.unacked _ (List.mem_append_right _ (List.mem_singleton.mpr rfl))
          cases this
      | getSymbol symbol _ hcall =>
          rcases getSymbol_ok_iff.mp hcall with ⟨hfec, x, hx, rfl⟩ | ⟨hfec, rest, x, _, hx, rfl⟩
          · exact he.onRecovery hlaw (by omega) hfec hx
          · exact he.onChunk hlaw (by omega) hfec hx

/-! ## What follows from it -/

theorem Ordered.canSend {symbols : List Symbol} (h : Ordered view symbols e)
    {events : List Event} (hrun : Run (Step fecRatio) {} events e) (hmodest : Modest events) :
    e.CanSend fecRatio view := by
  have hfew := hmodest.added_lt hrun
  have hinput : e.encoder.added ++ e.pending = chunks events := input_of_run hrun
  constructor
  · intro hfec hempty
    have hmarks := (h.paced.isNextSymbolFec_iff regular_fecRatio).mp hfec
    have hzero := h.window.window.empty hempty
    rw [← hzero] at hmarks
    simp [Pacing.quota] at hmarks
  · intro _ chunk hchunk
    refine ⟨hmodest.acceptable chunk ?_, ?_⟩
    · rw [← hinput]
      exact List.mem_append_right _ (List.mem_of_mem_head? hchunk)
    · by_cases hempty : (view e.encoder.encoder).window.count = 0
      · omega
      · obtain ⟨base, hn, -⟩ := h.window.window.elements hempty
        omega

/-- The loop ends, since there are slots for all chunks that are left. -/
theorem Modest.drainSymbols_returns (hlaw : S.Windowed view) {rounds : Nat} {events : List Event}
    (h : Modest events) (hrun : Run (Step fecRatio) {} events e)
    (hrounds : e.remaining fecRatio < rounds) :
    ∃ rest e', drainSymbols fecRatio rounds e = .ok rest e' := by
  have he := ordered_of_run hlaw hrun h
  have hinput : e.encoder.added ++ e.pending = chunks events := input_of_run hrun
  apply ContinuousStreamEncoder.drainSymbols_returns hlaw regular_fecRatio hrun hrounds
    (he.canSend hrun h).recovery
  · intro chunk hchunk
    apply h.acceptable
    rw [← hinput]
    exact List.mem_append_right _ hchunk
  · exact (hasSlots_of_unacked he.window.window _).mpr (h.added_lt hrun).le

/-- With no ack, an encoder stands at its ratio when a whole number of segments is out. -/
theorem Ordered.atRatio_iff {symbols : List Symbol} (h : Ordered view symbols e)
    (hn : 0 < e.encoder.added.length) : e.reliabilityLevel fecRatio = .atRatio ↔
      5 * e.encoder.emitted.length = 2 * e.encoder.added.length := by
  have hitem : e.segmentChunkIndex1 = _ := h.paced.item1
  have hmark : e.segmentFecIndex = _ := h.paced.mark
  have hlower := h.paced.lower
  have hupper := h.paced.upper
  simp only [numerator_fecRatio, den_fecRatio, Pacing.quota, if_neg hn.ne'] at *
  have hunacked : ¬e.receiverExpects = e.nextIndex := by
    rw [h.expects, h.next]
    omega
  unfold reliabilityLevel
  rw [if_neg hunacked, den_fecRatio, hitem, hmark]
  split
  · simp only [true_iff]
    omega
  · simp only [reduceCtorEq, false_iff]
    omega

/-- An encoder that is given fewer than 16000 chunks, each of them acceptable to the codec,
and no acks returns the chunks in order, with recovery symbols where they belong. -/
theorem encoder_keeps_order {S : Siamese} {view : S.Encoder → SiameseEncoder}
    (hlaw : S.Windowed view) {events : List Event} {e : ContinuousStreamEncoder S}
    (hrun : Run (Step fecRatio) {} events e) (hacks : ∀ x ∈ events, x.message? = none)
    (hacceptable : ∀ chunk ∈ chunks events, SiameseEncoder.Acceptable chunk)
    (hfew : (chunks events).length < siameseMaxPackets) : KeepsOrder events e := by
  have hmodest : Modest events := ⟨hacks, hacceptable, hfew⟩
  have h := ordered_of_run hlaw hrun hmodest
  have hinput : e.encoder.added ++ e.pending = chunks events := input_of_run hrun
  have hlength : (originals (symbols events)).length = e.encoder.added.length := by
    rw [h.originals, List.length_zipIdx]
  refine ⟨?_, h.recovery, ?_, ⟨e.remaining fecRatio + 1,
    hmodest.drainSymbols_returns hlaw hrun (Nat.lt_succ_self _)⟩, ?_, ?_⟩
  · rw [h.originals, ← hinput, List.zipIdx_append]
    exact List.prefix_append _ _
  · exact fun hdata => (getSymbol_returns_iff hlaw hdata).mpr (h.canSend hrun hmodest)
  · intro hdata
    obtain ⟨hpending, hemitted⟩ := (h.paced.hasData_eq_false_iff regular_fecRatio).mp hdata
    rw [hpending, List.append_nil] at hinput
    refine ⟨by rw [h.originals, hinput], ?_⟩
    rw [h.recoveries, hlength, hemitted, numerator_fecRatio, den_fecRatio, Pacing.quota,
      Nat.mul_comm]
  · intro hn
    rw [hlength] at hn
    rw [h.recoveries, hlength]
    exact h.atRatio_iff hn

/-! ## Five chunks -/

def fiveChunks : List Bytes := [[1], [2], [3], [4], [5]]

/-- Their symbols are got one by one until there are none left. -/
theorem drained_fiveChunks : ∃ events, ∃ e : ContinuousStreamEncoder windowing,
    Run (Step fecRatio) {} events e ∧ (∀ x ∈ events, x.message? = none) ∧
      chunks events = fiveChunks ∧ e.hasData fecRatio = false := by
  let e : ContinuousStreamEncoder windowing := { pending := fiveChunks }
  have hrun : Run (Step fecRatio) {} (fiveChunks.map Event.queueChunk) e :=
    .snoc (.snoc (.snoc (.snoc (.single (.queueChunk [1] rfl)) (.queueChunk [2] rfl))
      (.queueChunk [3] rfl)) (.queueChunk [4] rfl)) (.queueChunk [5] rfl)
  have hmodest : Modest (fiveChunks.map Event.queueChunk) := by
    refine ⟨by simp [Event.message?], ?_, by decide⟩
    simp [fiveChunks, chunks, Event.chunk?, SiameseEncoder.Acceptable, u32, siameseMaxPacketBytes]
  obtain ⟨rest, e', hdrain⟩ :=
    hmodest.drainSymbols_returns Windowing.windowed hrun (Nat.lt_succ_self _)
  obtain ⟨hgot, hdata⟩ := run_of_drainSymbols _ hdrain
  refine ⟨_, e', hrun.append hgot, ?_, ?_, hdata⟩
  · intro x hx
    rcases List.mem_append.mp hx with hx | hx <;> obtain ⟨_, -, rfl⟩ := List.mem_map.mp hx <;> rfl
  · simp [fiveChunks, chunks, Event.chunk?, List.filterMap_map, Function.comp_def]

/-- The five are returned in order, with two recovery symbols. -/
theorem encoder_keeps_order_drained : ∃ events, ∃ e : ContinuousStreamEncoder windowing,
    Run (Step fecRatio) {} events e ∧ originals (symbols events) = fiveChunks.zipIdx ∧
      (recoveries (symbols events)).length = 2 ∧ KeepsOrder events e := by
  obtain ⟨events, e, hrun, hacks, hchunks, hdata⟩ := drained_fiveChunks
  have hkeeps : KeepsOrder events e := by
    refine encoder_keeps_order Windowing.windowed hrun hacks ?_ ?_ <;> rw [hchunks]
    · simp [fiveChunks, SiameseEncoder.Acceptable, u32, siameseMaxPacketBytes]
    · decide
  obtain ⟨horiginals, hrecoveries⟩ := hkeeps.drained hdata
  rw [horiginals, hchunks] at hrecoveries
  exact ⟨events, e, hrun, hchunks ▸ horiginals, hrecoveries, hkeeps⟩

/-- An empty chunk is queued and never returned: the codec refuses it. -/
theorem empty_chunk_breaks_order : ∃ e : ContinuousStreamEncoder windowing,
    Run (Step fecRatio) {} [.queueChunk []] e ∧ e.hasData fecRatio = true ∧
      ¬KeepsOrder [.queueChunk []] e := by
  let e : ContinuousStreamEncoder windowing := { pending := [[]] }
  have hrun : Run (Step fecRatio) {} [.queueChunk []] e := Run.single (.queueChunk [] rfl)
  have hdata : e.hasData fecRatio = true := rfl
  refine ⟨e, hrun, hdata, fun h => ?_⟩
  have hsend := (getSymbol_returns_iff Windowing.windowed hdata).mp (h.returns hdata)
  have hfec : e.isNextSymbolFec fecRatio = false := by
    have hpaced := paced_of_run regular_fecRatio hrun
    by_contra hmarks
    have := (hpaced.isNextSymbolFec_iff regular_fecRatio).mp (by simpa using hmarks)
    simp [e, Pacing.quota] at this
  have hacceptable := (hsend.chunk hfec [] rfl).1
  exact absurd hacceptable (by simp [SiameseEncoder.Acceptable, u32])

end FecRelay.ContinuousStreamEncoder
