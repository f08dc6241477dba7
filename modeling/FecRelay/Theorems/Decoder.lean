import FecRelay.Base.Run
import FecRelay.Codec.Echo
import FecRelay.Stream

/-!
# The stream decoder does not stall

After every symbol the chunks that are next in order are handed out. A chunk waits
in the queue once, or it is never found at the top again: a second copy of a chunk
that is still waiting stays behind when the first is handed out, and nothing gets
past it.
-/

namespace FecRelay.ContinuousStream

open FecRelay.Base

variable {S : Siamese}

/-! ## Runs -/

/-- A symbol is given to the decoder and what it has is drained, as a relay does. -/
def Feeds (s : ContinuousStream S) (e : Symbol) (s' : ContinuousStream S) : Prop :=
  ∃ rounds s₁, onDecoder (ContinuousStreamDecoder.processSymbol rounds e.1 e.2) s = .ok () s₁ ∧
    relayChunks s₁ = .ok () s'

/-- A recovery symbol, or a chunk with an index the codec has. -/
def InRange (e : Symbol) : Prop := e.2 = packetIndexFec ∨ e.2 < siamesePacketNumCount

/-- After each drain as many chunks were handed out as the longest run of indices from
0 on that were received or recovered. -/
def NoStall (S : Siamese) : Prop :=
  ∀ (es : List Symbol) (s : ContinuousStream S), (∀ e ∈ es, InRange e) → Run Feeds {} es s →
    Reassembly.IsRun s.decoder.processed s.decoder.handedOut.length

/-- The symbol is not a second copy of a chunk that still waits, nor of the first chunk
when all indices are used up and the next index is 0 again. -/
def Fresh (d : ContinuousStreamDecoder S) (index : Nat) : Prop :=
  index = packetIndexFec ∨ index < d.nextIndex ∨
    if d.handedOut.length < siamesePacketNumCount then
      ∀ symbol ∈ d.symbolsAhead.c, symbol.2 ≠ index
    else index ≠ 0

instance (d : ContinuousStreamDecoder S) (index : Nat) : Decidable (Fresh d index) :=
  inferInstanceAs (Decidable (_ ∨ _ ∨ _))

/-- The symbol is fresh when it is given to the decoder. -/
def FeedsFresh (s : ContinuousStream S) (e : Symbol) (s' : ContinuousStream S) : Prop :=
  Feeds s e s' ∧ Fresh s.decoder e.2

end FecRelay.ContinuousStream

namespace FecRelay.ContinuousStreamDecoder

open FecRelay.Base

variable {S : Siamese}

/-! ## The queue of chunks ahead -/

/-- What is waiting while indices are left: each chunk that was not handed out yet,
once. -/
structure Waiting (d : ContinuousStreamDecoder S) : Prop where
  distinct : (d.symbolsAhead.c.map (·.2)).Nodup
  later : ∀ symbol ∈ d.symbolsAhead.c, d.handedOut.length ≤ symbol.2
  complete : ∀ i ∈ d.processed,
    i < d.handedOut.length ∨ ∃ symbol ∈ d.symbolsAhead.c, symbol.2 = i

/-- The chunks handed out are those with the least indices. -/
structure Ordered (d : ContinuousStreamDecoder S) : Prop where
  bounded : ∀ i ∈ d.processed, i < siamesePacketNumCount
  count : d.handedOut.length ≤ siamesePacketNumCount
  next : d.nextIndex = d.handedOut.length % siamesePacketNumCount
  handed : ∀ i < d.handedOut.length, i ∈ d.processed
  ahead : ∀ symbol ∈ d.symbolsAhead.c, symbol.2 ∈ d.processed
  waiting : d.handedOut.length < siamesePacketNumCount → d.Waiting
  wrapped : d.handedOut.length = siamesePacketNumCount →
    ∀ symbol ∈ d.symbolsAhead.c, symbol.2 ≠ 0

theorem Ordered.next_of_lt {d : ContinuousStreamDecoder S} (h : d.Ordered)
    (hlt : d.handedOut.length < siamesePacketNumCount) : d.nextIndex = d.handedOut.length := by
  rw [h.next]
  exact Nat.mod_eq_of_lt hlt

theorem Ordered.next_of_wrapped {d : ContinuousStreamDecoder S} (h : d.Ordered)
    (hwrapped : d.handedOut.length = siamesePacketNumCount) : d.nextIndex = 0 := by
  rw [h.next, hwrapped]
  exact Nat.mod_self _

theorem ordered_init : ({} : ContinuousStreamDecoder S).Ordered where
  bounded _ hi := absurd hi List.not_mem_nil
  count := Nat.zero_le _
  next := (Nat.zero_mod _).symm
  handed i hi := absurd hi (Nat.not_lt_zero i)
  ahead _ hsymbol := absurd hsymbol List.not_mem_nil
  waiting _ := {
    distinct := List.nodup_nil
    later := fun _ hsymbol => absurd hsymbol List.not_mem_nil
    complete := fun _ hi => absurd hi List.not_mem_nil }
  wrapped _ _ hsymbol := absurd hsymbol List.not_mem_nil

/-- The order is none of the codec's business. -/
theorem Ordered.onDecoder {d : ContinuousStreamDecoder S} (h : d.Ordered)
    (x : StreamFecDecoder S) : ({ d with decoder := x } : ContinuousStreamDecoder S).Ordered where
  bounded := h.bounded
  count := h.count
  next := h.next
  handed := h.handed
  ahead := h.ahead
  waiting hlt := { h.waiting hlt with }
  wrapped := h.wrapped

section withChunk

variable {d : ContinuousStreamDecoder S} {symbol : Symbol}

/-- A chunk that was handed out before is dropped. -/
theorem Waiting.of_late (h : d.Waiting) (hlate : symbol.2 < d.nextIndex)
    (hhanded : symbol.2 < d.handedOut.length) : (d.withChunk symbol).Waiting := by
  refine ⟨?_, ?_, ?_⟩
  · rw [withChunk_of_late hlate]
    exact h.distinct
  · rw [withChunk_of_late hlate]
    exact h.later
  · rw [withChunk_of_late hlate, withChunk_processed, List.forall_mem_append,
      List.forall_mem_singleton]
    exact ⟨h.complete, Or.inl hhanded⟩

/-- A chunk that is not there yet waits for its turn. -/
theorem Waiting.of_ahead (h : d.Waiting) (hahead : ¬symbol.2 < d.nextIndex)
    (hlater : d.handedOut.length ≤ symbol.2)
    (hfresh : ∀ x ∈ d.symbolsAhead.c, x.2 ≠ symbol.2) : (d.withChunk symbol).Waiting := by
  refine ⟨?_, ?_, ?_⟩
  · rw [withChunk_of_ahead hahead, List.map_append, List.nodup_append]
    refine ⟨h.distinct, List.nodup_singleton _, ?_⟩
    intro i hi j hj
    obtain ⟨x, hx, rfl⟩ := List.mem_map.mp hi
    rw [List.mem_singleton.mp hj]
    exact hfresh x hx
  · rw [withChunk_of_ahead hahead, List.forall_mem_append, List.forall_mem_singleton]
    exact ⟨h.later, hlater⟩
  · rw [withChunk_of_ahead hahead, withChunk_processed, List.forall_mem_append,
      List.forall_mem_singleton]
    refine ⟨?_, Or.inr ⟨symbol, by simp, rfl⟩⟩
    intro i hi
    rcases h.complete i hi with hi | ⟨x, hx, hxi⟩
    · exact Or.inl hi
    · exact Or.inr ⟨x, List.mem_append_left _ hx, hxi⟩

/-- A fresh chunk keeps the order. -/
theorem Ordered.withChunk (h : d.Ordered) (hrange : symbol.2 < siamesePacketNumCount)
    (hfresh : ContinuousStream.Fresh d symbol.2) : (d.withChunk symbol).Ordered := by
  have hfec : symbol.2 ≠ packetIndexFec := by
    unfold siamesePacketNumCount at hrange
    unfold packetIndexFec
    omega
  have hfresh := hfresh.resolve_left hfec
  have hbounded : ∀ i ∈ (d.withChunk symbol).processed, i < siamesePacketNumCount := by
    rw [withChunk_processed, List.forall_mem_append, List.forall_mem_singleton]
    exact ⟨h.bounded, hrange⟩
  have hhanded : ∀ i < d.handedOut.length, i ∈ (d.withChunk symbol).processed :=
    fun i hi => List.mem_append_left _ (h.handed i hi)
  have hold : ∀ x ∈ d.symbolsAhead.c, x.2 ∈ (d.withChunk symbol).processed :=
    fun x hx => List.mem_append_left _ (h.ahead x hx)
  by_cases hlate : symbol.2 < d.nextIndex
  · refine ⟨hbounded, h.count, h.next, hhanded, ?_, ?_, ?_⟩
    · rw [withChunk_of_late hlate]
      exact hold
    · intro hlt
      exact (h.waiting hlt).of_late hlate (h.next_of_lt hlt ▸ hlate)
    · rw [withChunk_of_late hlate]
      exact h.wrapped
  · have hfresh := hfresh.resolve_left hlate
    refine ⟨hbounded, h.count, h.next, hhanded, ?_, ?_, ?_⟩
    · rw [withChunk_of_ahead hlate, List.forall_mem_append, List.forall_mem_singleton]
      exact ⟨hold, List.mem_append_right _ List.mem_cons_self⟩
    · intro hlt
      rw [if_pos (show d.handedOut.length < siamesePacketNumCount from hlt)] at hfresh
      exact (h.waiting hlt).of_ahead hlate (h.next_of_lt hlt ▸ not_lt.mp hlate) hfresh
    · intro hwrapped
      have hnot : ¬d.handedOut.length < siamesePacketNumCount := not_lt.mpr (le_of_eq hwrapped.symm)
      rw [if_neg hnot] at hfresh
      rw [withChunk_of_ahead hlate, List.forall_mem_append, List.forall_mem_singleton]
      exact ⟨h.wrapped hwrapped, hfresh⟩

end withChunk

/-- A chunk whose index was never seen is fresh. -/
theorem Ordered.fresh_of_unseen {d : ContinuousStreamDecoder S} (h : d.Ordered) {index : Nat}
    (hrange : index < siamesePacketNumCount) (hunseen : index ∉ d.processed) :
    ContinuousStream.Fresh d index := by
  have hlt : d.handedOut.length < siamesePacketNumCount := by
    by_contra hwrapped
    exact hunseen (h.handed index (by omega))
  refine Or.inr (Or.inr ?_)
  rw [if_pos hlt]
  intro symbol hsymbol heq
  exact hunseen (heq ▸ h.ahead symbol hsymbol)

/-- So recovered chunks keep the order. -/
theorem Ordered.foldl_withChunk {chunks : List Symbol} :
    ∀ {d : ContinuousStreamDecoder S}, d.Ordered → (chunks.map (·.2)).Nodup →
      (∀ chunk ∈ chunks, chunk.2 ∉ d.processed ∧ chunk.2 < siamesePacketNumCount) →
      (chunks.foldl ContinuousStreamDecoder.withChunk d).Ordered := by
  induction chunks with
  | nil => intro d h _ _; exact h
  | cons chunk chunks ih =>
      intro d h hdistinct hnew
      rw [List.map_cons, List.nodup_cons] at hdistinct
      obtain ⟨hunseen, hrange⟩ := hnew chunk List.mem_cons_self
      apply ih (h.withChunk hrange (h.fresh_of_unseen hrange hunseen)) hdistinct.2
      intro x hx
      obtain ⟨hx', hxrange⟩ := hnew x (List.mem_cons_of_mem _ hx)
      refine ⟨?_, hxrange⟩
      intro hmem
      rcases List.mem_append.mp hmem with hmem | hmem
      · exact hx' hmem
      · exact hdistinct.1 (List.mem_singleton.mp hmem ▸ List.mem_map_of_mem hx)

/-- Handing out the top when it is next keeps the order. -/
theorem Ordered.handOut {d : ContinuousStreamDecoder S} (h : d.Ordered) {symbol : Symbol}
    (htop : d.symbolsAhead.top = some symbol) (hnext : symbol.2 = d.nextIndex) :
    (d.handOut symbol).Ordered := by
  have hmem := PriorityBag.top_mem htop
  have hperm := PriorityBag.perm_top_cons_erase htop
  -- index 0 is not handed out again
  have hlt : d.handedOut.length < siamesePacketNumCount := by
    by_contra hge
    have hwrapped : d.handedOut.length = siamesePacketNumCount := by
      have := h.count
      omega
    exact h.wrapped hwrapped symbol hmem (hnext.trans (h.next_of_wrapped hwrapped))
  have hwaiting := h.waiting hlt
  have hindex : symbol.2 = d.handedOut.length := hnext.trans (h.next_of_lt hlt)
  have hlength : (d.handOut symbol).handedOut.length = d.handedOut.length + 1 := by
    show (d.handedOut ++ [symbol.1]).length = _
    rw [List.length_append, List.length_singleton]
  have hdistinct : (symbol.2 :: (d.symbolsAhead.c.erase symbol).map (·.2)).Nodup := by
    have hmap := hperm.map (·.2)
    exact hmap.nodup_iff.mpr hwaiting.distinct
  rw [List.nodup_cons] at hdistinct
  have hrest : ∀ x ∈ d.symbolsAhead.c.erase symbol, d.handedOut.length + 1 ≤ x.2 := by
    intro x hx
    have hge := hwaiting.later x (List.mem_of_mem_erase hx)
    have hne : x.2 ≠ symbol.2 := fun heq => hdistinct.1 (heq ▸ List.mem_map_of_mem hx)
    omega
  refine ⟨h.bounded, ?_, ?_, ?_, ?_, ?_, ?_⟩
  · omega
  · rw [hlength]
    show siamesePacketNumInc d.nextIndex = _
    rw [h.next_of_lt hlt]
    rfl
  · intro i hi
    rw [hlength] at hi
    rcases Nat.lt_succ_iff_lt_or_eq.mp hi with hi | rfl
    · exact h.handed i hi
    · exact hindex ▸ h.ahead symbol hmem
  · exact fun x hx => h.ahead x (List.mem_of_mem_erase hx)
  · intro _
    refine ⟨hdistinct.2, ?_, ?_⟩
    · rw [hlength]
      exact hrest
    · rw [hlength]
      intro i hi
      rcases hwaiting.complete i hi with hi | ⟨x, hx, hxi⟩
      · exact Or.inl (by omega)
      · rcases List.mem_cons.mp (hperm.mem_iff.mpr hx) with rfl | hx
        · exact Or.inl (by omega)
        · exact Or.inr ⟨x, hx, hxi⟩
  · intro _ x hx
    have := hrest x hx
    omega

/-- Once nothing is next in order, the chunks handed out are the longest run. -/
theorem Ordered.isRun {d : ContinuousStreamDecoder S} (h : d.Ordered) (hend : d.hasData = false) :
    Reassembly.IsRun d.processed d.handedOut.length := by
  refine ⟨h.handed, ?_⟩
  intro hmem
  have hlt := h.bounded _ hmem
  have hwaiting := h.waiting hlt
  -- the next chunk waits, so it is at the top
  obtain ⟨symbol, hsymbol, hindex⟩ : ∃ symbol ∈ d.symbolsAhead.c, symbol.2 = d.handedOut.length :=
    (hwaiting.complete _ hmem).resolve_left (lt_irrefl _)
  obtain ⟨top, htop⟩ : ∃ top, d.symbolsAhead.top = some top :=
    PriorityBag.top_isSome (List.ne_nil_of_mem hsymbol)
  have hle : top.2 ≤ symbol.2 :=
    not_lt.mp (of_decide_eq_false
      (PriorityBag.top_maximal leastIndexTop_strictWeak htop symbol hsymbol))
  have hge := hwaiting.later top (PriorityBag.top_mem htop)
  have hnext : top.2 = d.nextIndex := by
    rw [h.next_of_lt hlt]
    omega
  rw [hasData_iff.mpr ⟨top, htop, hnext⟩] at hend
  cases hend

/-! ## The calls -/

/-- The decoder's codec has seen what was processed, and the chunks are in order. -/
structure Consistent (d : ContinuousStreamDecoder S) : Prop where
  ordered : d.Ordered
  sees : S.Sees d.processed d.decoder.decoder

theorem Consistent.decodeLoop (law : S.DecodesFirstSeen) (rounds : Nat)
    {d d' : ContinuousStreamDecoder S} (hd : d.Consistent)
    (h : ContinuousStreamDecoder.decodeLoop rounds d = .ok () d') : d'.Consistent := by
  refine invariant_of_decodeLoop (I := Consistent)
    (fun t ht hanswer => ⟨ht.ordered.onDecoder _, .isReady ht.sees hanswer⟩) ?_ rounds hd h
  intro t ht hsuccess
  -- the codec decodes packets it sees for the first time
  obtain ⟨hdistinct, hnew⟩ := law _ _ ht.sees hsuccess
  have hindices : ((S.decode t.decoder.decoder).2.1.map fun packet => (packet.2, packet.1)).map
      (·.2) = (S.decode t.decoder.decoder).2.1.map (·.1) := by
    rw [List.map_map]
    rfl
  have hordered := ht.ordered.onDecoder ⟨(S.decode t.decoder.decoder).2.2⟩
  refine ⟨hordered.foldl_withChunk (hindices ▸ hdistinct) ?_, ?_⟩
  · intro chunk hchunk
    obtain ⟨packet, hpacket, rfl⟩ := List.mem_map.mp hchunk
    exact hnew packet hpacket
  · rw [foldl_withChunk_processed, foldl_withChunk_decoder, hindices]
    exact .decode ht.sees hsuccess

theorem Consistent.processSymbol (law : S.DecodesFirstSeen) {d d' : ContinuousStreamDecoder S}
    (hd : d.Consistent) {rounds : Nat} {data : Bytes} {index : Nat}
    (hrange : ContinuousStream.InRange (data, index)) (hfresh : ContinuousStream.Fresh d index)
    (h : ContinuousStreamDecoder.processSymbol rounds data index d = .ok () d') :
    d'.Consistent := by
  obtain ⟨x, hx, h⟩ := processSymbol_ok_iff.mp h
  have hdecoder := StreamFecDecoder.processSymbol_ok hx
  have htakes := StreamFecDecoder.takes_of_ok hx
  unfold StreamFecDecoder.Takes at htakes
  refine Consistent.decodeLoop law rounds ?_ h
  have hordered := hd.ordered.onDecoder x
  by_cases hfec : index = packetIndexFec
  · rw [if_pos hfec] at hdecoder htakes ⊢
    refine ⟨hordered, ?_⟩
    rw [hdecoder]
    exact .addRecovery hd.sees htakes
  · rw [if_neg hfec] at hdecoder htakes ⊢
    refine ⟨hordered.withChunk (hrange.resolve_left hfec) hfresh, ?_⟩
    show S.Sees (d.processed ++ [index]) x.decoder
    rw [hdecoder]
    exact .addOriginal hd.sees htakes

end FecRelay.ContinuousStreamDecoder

namespace FecRelay.ContinuousStream

open FecRelay.Base

variable {S : Siamese}

theorem consistent_step (law : S.DecodesFirstSeen) {s s' : ContinuousStream S} {e : Symbol}
    (hs : s.decoder.Consistent) (hrange : InRange e) (hstep : FeedsFresh s e s') :
    s'.decoder.Consistent ∧ s'.decoder.hasData = false := by
  obtain ⟨⟨rounds, s₁, hsymbol, hrelay⟩, hfresh⟩ := hstep
  obtain ⟨d, hd, rfl⟩ := Method.zoom_ok_iff.mp hsymbol
  have hconsistent := hs.processSymbol law hrange hfresh hd
  have preserved : ∀ (s : ContinuousStream S) (symbol : Symbol), s.decoder.Consistent →
      s.decoder.symbolsAhead.top = some symbol → symbol.2 = s.decoder.nextIndex →
      (s.passOn symbol).decoder.Consistent :=
    fun s symbol h htop hnext => ⟨h.ordered.handOut htop hnext, h.sees⟩
  obtain ⟨s₂, heq, hs₂, hend⟩ := relayChunks_spec preserved
    (show ({ s with decoder := d } : ContinuousStream S).decoder.Consistent from hconsistent)
  rw [hrelay] at heq
  cases heq
  exact ⟨hs₂, hend⟩

/-- **No stall.** Where every symbol is fresh when it is given to the decoder, as many
chunks are handed out as the longest run of indices from 0 on that were received or
recovered, after every drain. -/
theorem no_stall (law : S.DecodesFirstSeen) (es : List Symbol) (s : ContinuousStream S)
    (hrange : ∀ e ∈ es, InRange e) (hrun : Run FeedsFresh {} es s) :
    Reassembly.IsRun s.decoder.processed s.decoder.handedOut.length := by
  have hinit : ({} : ContinuousStream S).decoder.Consistent :=
    ⟨ContinuousStreamDecoder.ordered_init, .create⟩
  obtain ⟨hconsistent, hend⟩ : s.decoder.Consistent ∧ s.decoder.hasData = false :=
    Run.invariant_of_events
      (I := fun s => s.decoder.Consistent ∧ s.decoder.hasData = false) (C := InRange)
      (fun s e t hs he hstep => consistent_step law hs.1 he hstep) hrun hrange ⟨hinit, rfl⟩
  exact hconsistent.ordered.isRun hend

/-! ## Runs over the echoing codec -/

/-- A stream with nothing to recover that has passed on what it handed out. -/
def relayed (seen : List Nat) (nextIndex : Nat) (ahead : List Symbol) (handedOut : List Bytes)
    (processed : List Nat) : ContinuousStream echoing where
  decoder := {
    decoder := ⟨{ seen := seen }⟩
    nextIndex := nextIndex
    symbolsAhead := ⟨ahead⟩
    handedOut := handedOut
    processed := processed }
  encoder := { pending := handedOut }

/-- Chunk 1 arrives ahead of chunk 0, and chunk 2 is recovered. -/
def recoveredInOrder : List Symbol := [([1], 1), ([0], 0), (store32 2 ++ [2], packetIndexFec)]

theorem no_stall_three_chunks : Reassembly.IsRun [1, 0, 2] 3 := by
  let s₁ := relayed [1] 0 [([1], 1)] [] [1]
  let s₂ := relayed [1, 0] 2 [] [[0], [1]] [1, 0]
  let s₃ := relayed [1, 0, 2] 3 [] [[0], [1], [2]] [1, 0, 2]
  have h₁ : FeedsFresh (relayed [] 0 [] [] []) ([1], 1) s₁ := ⟨⟨1, s₁, rfl, rfl⟩, by decide⟩
  have h₂ : FeedsFresh s₁ ([0], 0) s₂ :=
    ⟨⟨1, { relayed [1, 0] 0 [([1], 1), ([0], 0)] [] [1, 0] with encoder := {} }, rfl, rfl⟩,
      by decide⟩
  have h₃ : FeedsFresh s₂ (store32 2 ++ [2], packetIndexFec) s₃ :=
    ⟨⟨2, { relayed [1, 0, 2] 2 [([2], 2)] [[0], [1]] [1, 0, 2] with encoder := s₂.encoder },
      rfl, rfl⟩, Or.inl rfl⟩
  have hrange : ∀ e ∈ recoveredInOrder, InRange e := by
    intro e he
    fin_cases he
    · exact Or.inr (by decide)
    · exact Or.inr (by decide)
    · exact Or.inl rfl
  exact no_stall Echo.decodesFirstSeen recoveredInOrder s₃ hrange (.snoc (.snoc (.single h₁) h₂) h₃)

/-- Chunk 1 arrives twice ahead of chunk 0, and chunk 2 after it. -/
def secondCopyAhead : List Symbol := [([1], 1), ([1], 1), ([0], 0), ([2], 2)]

/-- **A second copy stalls the decoder.** It is left at the top of the queue, and chunk 2
is not handed out although all chunks before it were. -/
theorem second_copy_stalls : echoing.DecodesFirstSeen ∧ ¬NoStall echoing := by
  refine ⟨Echo.decodesFirstSeen, ?_⟩
  intro h
  let s₁ := relayed [1] 0 [([1], 1)] [] [1]
  let s₂ := relayed [1] 0 [([1], 1), ([1], 1)] [] [1, 1]
  let s₃ := relayed [1, 0] 2 [([1], 1)] [[0], [1]] [1, 1, 0]
  let s₄ := relayed [1, 0, 2] 2 [([1], 1), ([2], 2)] [[0], [1]] [1, 1, 0, 2]
  have h₁ : Feeds (relayed [] 0 [] [] []) ([1], 1) s₁ := ⟨1, s₁, rfl, rfl⟩
  have h₂ : Feeds s₁ ([1], 1) s₂ := ⟨1, s₂, rfl, rfl⟩
  have h₃ : Feeds s₂ ([0], 0) s₃ :=
    ⟨1, relayed [1, 0] 0 [([1], 1), ([1], 1), ([0], 0)] [] [1, 1, 0], rfl, rfl⟩
  have h₄ : Feeds s₃ ([2], 2) s₄ := ⟨1, s₄, rfl, rfl⟩
  have hrange : ∀ e ∈ secondCopyAhead, InRange e := by
    intro e he
    apply Or.inr
    fin_cases he <;> decide
  have hisRun := h secondCopyAhead s₄ hrange (.snoc (.snoc (.snoc (.single h₁) h₂) h₃) h₄)
  -- two chunks were handed out, and index 2 was received
  have hreceived : 2 ∈ s₄.decoder.processed := by decide
  exact hisRun.2 hreceived

end FecRelay.ContinuousStream
