import FecRelay.Base.Cyclic
import FecRelay.Base.Run
import FecRelay.Codec.Echo
import FecRelay.Stream

/-!
# Chunks around the end of the packet numbers

Chunk number `c` of a stream is sent under the index `c` modulo 2²². The decoder compares
indices, so it tells what it has handed out from what is ahead exactly as long as a chunk
that arrives is in the same lap of 2²² numbers as the chunk that it expects next. Where
that is so, chunks are handed out in the order of their numbers, unless a second copy of
the last chunk of a lap is still waiting when the first is handed out.
-/

namespace FecRelay.ContinuousStreamDecoder

open FecRelay.Base

variable {S : Siamese}

/-! ## Runs -/

/-- Chunk `c` of the stream, as it is sent. -/
def numbered (stream : Nat → Bytes) (c : Nat) : Symbol := (stream c, c % siamesePacketNumCount)

/-- What happens to a decoder: chunk `c` is received or recovered, a chunk is handed out, or
the codec does something. -/
inductive Event where
  | arrives (c : Nat)
  | getChunk
  | codec
  deriving DecidableEq, Repr

/-- A chunk is asked for only while there is data. -/
inductive Step (stream : Nat → Bytes) :
    ContinuousStreamDecoder S → Event → ContinuousStreamDecoder S → Prop
  | arrives {d d' : ContinuousStreamDecoder S} (c : Nat) :
      processOriginalChunk (numbered stream c).1 (numbered stream c).2 d = .ok () d' →
      Step stream d (.arrives c) d'
  | getChunk {d d' : ContinuousStreamDecoder S} {chunk : Bytes} :
      d.hasData = true → getChunk d = .ok chunk d' → Step stream d .getChunk d'
  | codec {d : ContinuousStreamDecoder S} (x : StreamFecDecoder S) :
      Step stream d .codec { d with decoder := x }

/-- A chunk that arrives is within 2²¹ of the next one expected. -/
def Near (d : ContinuousStreamDecoder S) : Event → Prop
  | .arrives c => c ≤ d.handedOut.length + 2 ^ 21 ∧ d.handedOut.length ≤ c + 2 ^ 21
  | _ => True

/-- A chunk that arrives is discarded if and only if it was handed out before. -/
def DiscardsRightly (d : ContinuousStreamDecoder S) (e : Event) (d' : ContinuousStreamDecoder S) :
    Prop :=
  match e with
  | .arrives c => d'.symbolsAhead = d.symbolsAhead ↔ c < d.handedOut.length
  | _ => True

/-- What was handed out are the first chunks of the stream, in their order. -/
def InOrder (stream : Nat → Bytes) (d : ContinuousStreamDecoder S) : Prop :=
  d.handedOut = (List.range d.handedOut.length).map stream

def NearStep (stream : Nat → Bytes) (d : ContinuousStreamDecoder S) (e : Event)
    (d' : ContinuousStreamDecoder S) : Prop :=
  Step stream d e d' ∧ d.Near e

/-- However chunks arrive near the next one expected, each is discarded rightly, and the chunks
are handed out in order. -/
def SurvivesWraparound (S : Siamese) : Prop :=
  ∀ (stream : Nat → Bytes) (es : List Event) (d : ContinuousStreamDecoder S) (e : Event)
    (d' : ContinuousStreamDecoder S), Run (NearStep stream) {} es d → NearStep stream d e d' →
      d.DiscardsRightly e d' ∧ d'.InOrder stream

/-- A chunk that arrives is in the same lap as the next one expected. -/
def InLap (d : ContinuousStreamDecoder S) : Event → Prop
  | .arrives c => c / siamesePacketNumCount = d.handedOut.length / siamesePacketNumCount
  | _ => True

/-- The last chunk of a lap is not handed out while a second copy of it waits. -/
def OneLast (d : ContinuousStreamDecoder S) : Event → Prop
  | .getChunk => d.nextIndex + 1 = siamesePacketNumCount → d.symbolsAhead.c.length = 1
  | _ => True

def LappedStep (stream : Nat → Bytes) (d : ContinuousStreamDecoder S) (e : Event)
    (d' : ContinuousStreamDecoder S) : Prop :=
  NearStep stream d e d' ∧ d.InLap e ∧ d.OneLast e

section steps

variable {stream : Nat → Bytes} {d d' : ContinuousStreamDecoder S} {e : Event}

/-! ## What a step does -/

/-- A chunk is discarded if its index is below the next one. -/
theorem withChunk_symbolsAhead_iff {symbol : Symbol} :
    (d.withChunk symbol).symbolsAhead = d.symbolsAhead ↔ symbol.2 < d.nextIndex := by
  constructor
  · intro hsame
    by_contra hahead
    have hc := withChunk_of_ahead hahead
    rw [hsame] at hc
    have := congrArg List.length hc
    simp at this
  · exact withChunk_of_late

/-- The next index is the number of chunks handed out, as far as it is counted. -/
def Counted (d : ContinuousStreamDecoder S) : Prop :=
  d.nextIndex = d.handedOut.length % siamesePacketNumCount

theorem counted_init : ({} : ContinuousStreamDecoder S).Counted := (Nat.zero_mod _).symm

theorem Counted.handOut (h : d.Counted) (symbol : Symbol) : (d.handOut symbol).Counted := by
  have hnext : d.nextIndex = d.handedOut.length % siamesePacketNumCount := h
  show siamesePacketNumInc d.nextIndex = (d.handedOut ++ [symbol.1]).length % _
  rw [hnext, siamesePacketNumInc, Nat.mod_add_mod, List.length_append, List.length_singleton]

/-- What a step does: a chunk is put to the others or discarded, the top is handed out if it
is next, or only the codec changes. -/
theorem Step.cases (h : Step stream d e d') :
    (∃ c, e = .arrives c ∧ d' = d.withChunk (numbered stream c)) ∨
      (∃ symbol, e = .getChunk ∧ d.symbolsAhead.top = some symbol ∧ symbol.2 = d.nextIndex ∧
        d' = d.handOut symbol) ∨
      ∃ x, e = .codec ∧ d' = { d with decoder := x } := by
  cases h with
  | arrives c hcall =>
      rw [processOriginalChunk_apply] at hcall
      cases hcall
      exact Or.inl ⟨c, rfl, rfl⟩
  | getChunk hdata hcall =>
      obtain ⟨symbol, htop, hnext⟩ := hasData_iff.mp hdata
      rw [getChunk_of_top htop] at hcall
      cases hcall
      exact Or.inr (Or.inl ⟨symbol, rfl, htop, hnext, rfl⟩)
  | codec x => exact Or.inr (Or.inr ⟨x, rfl, rfl⟩)

theorem Counted.step (h : d.Counted) (hstep : Step stream d e d') : d'.Counted := by
  rcases hstep.cases with ⟨c, -, rfl⟩ | ⟨symbol, -, -, -, rfl⟩ | ⟨x, -, rfl⟩
  · exact h
  · exact h.handOut symbol
  · exact h

/-! ## Discarding -/

/-- A chunk near the next one is discarded rightly exactly if it is in the same lap. -/
theorem Counted.discardsRightly_iff (h : d.Counted) (hstep : NearStep stream d e d') :
    d.DiscardsRightly e d' ↔ d.InLap e := by
  obtain ⟨hstep, hnear⟩ := hstep
  rcases hstep.cases with ⟨c, rfl, rfl⟩ | ⟨symbol, rfl, -⟩ | ⟨x, rfl, -⟩
  · have hnext : d.nextIndex = d.handedOut.length % siamesePacketNumCount := h
    have hnear : c ≤ d.handedOut.length + 2 ^ 21 ∧ d.handedOut.length ≤ c + 2 ^ 21 := hnear
    show ((d.withChunk (numbered stream c)).symbolsAhead = d.symbolsAhead ↔
      c < d.handedOut.length) ↔ _
    rw [withChunk_symbolsAhead_iff, hnext]
    apply Cyclic.mod_lt_mod_iff_same_lap
    · unfold siamesePacketNumCount
      omega
    · unfold siamesePacketNumCount
      omega
  · exact Iff.rfl
  · exact Iff.rfl

/-! ## Order -/

/-- The chunks handed out are in order, and those that wait are of the same lap as the next
one. -/
structure Lapped (stream : Nat → Bytes) (d : ContinuousStreamDecoder S) : Prop where
  counted : d.Counted
  inOrder : d.InOrder stream
  waiting : ∀ x ∈ d.symbolsAhead.c, ∃ c, x = numbered stream c ∧
    c / siamesePacketNumCount = d.handedOut.length / siamesePacketNumCount

theorem lapped_init : Lapped stream ({} : ContinuousStreamDecoder S) where
  counted := counted_init
  inOrder := rfl
  waiting _ hx := absurd hx List.not_mem_nil

theorem Lapped.withChunk (h : d.Lapped stream) {c : Nat} (hlap : d.InLap (.arrives c)) :
    (d.withChunk (numbered stream c)).Lapped stream := by
  refine ⟨h.counted, h.inOrder, ?_⟩
  by_cases hlate : (numbered stream c).2 < d.nextIndex
  · rw [withChunk_of_late hlate]
    exact h.waiting
  · rw [withChunk_of_ahead hlate, List.forall_mem_append, List.forall_mem_singleton]
    exact ⟨h.waiting, c, rfl, hlap⟩

/-- The top is the next chunk of the stream if its index is the next one. -/
theorem Lapped.top_eq (h : d.Lapped stream) {symbol : Symbol}
    (htop : d.symbolsAhead.top = some symbol) (hnext : symbol.2 = d.nextIndex) :
    symbol = numbered stream d.handedOut.length := by
  obtain ⟨c, rfl, hlap⟩ := h.waiting symbol (PriorityBag.top_mem htop)
  have hmod : c % siamesePacketNumCount = d.handedOut.length % siamesePacketNumCount :=
    hnext.trans h.counted
  rw [Cyclic.eq_of_mod_of_div hmod hlap]

theorem Lapped.handOut (h : d.Lapped stream) {symbol : Symbol}
    (htop : d.symbolsAhead.top = some symbol) (hnext : symbol.2 = d.nextIndex)
    (hlast : d.OneLast .getChunk) : (d.handOut symbol).Lapped stream := by
  have hlength : (d.handOut symbol).handedOut.length = d.handedOut.length + 1 := by
    show (d.handedOut ++ [symbol.1]).length = _
    rw [List.length_append, List.length_singleton]
  refine ⟨h.counted.handOut symbol, ?_, ?_⟩
  · show d.handedOut ++ [symbol.1] = _
    have horder : d.handedOut = _ := h.inOrder
    rw [hlength, List.range_succ, List.map_append, ← horder, h.top_eq htop hnext]
    rfl
  · intro x hx
    have hx : x ∈ d.symbolsAhead.c.erase symbol := hx
    obtain ⟨c, rfl, hlap⟩ := h.waiting x (List.mem_of_mem_erase hx)
    refine ⟨c, rfl, ?_⟩
    rw [hlength, hlap]
    have hcounted : d.nextIndex = d.handedOut.length % siamesePacketNumCount := h.counted
    by_cases hend : d.nextIndex + 1 = siamesePacketNumCount
    · -- nothing is left behind at the end of a lap
      have herase := PriorityBag.length_erase_top htop
      rw [hlast hend] at herase
      have hempty : d.symbolsAhead.c.erase symbol = [] :=
        List.eq_nil_of_length_eq_zero (by omega)
      rw [hempty] at hx
      cases hx
    · rw [hcounted] at hend
      unfold siamesePacketNumCount at *
      omega

theorem Lapped.step (h : d.Lapped stream) (hstep : LappedStep stream d e d') :
    d'.Lapped stream := by
  obtain ⟨⟨hstep, -⟩, hlap, hlast⟩ := hstep
  rcases hstep.cases with ⟨c, rfl, rfl⟩ | ⟨symbol, rfl, htop, hnext, rfl⟩ | ⟨x, rfl, rfl⟩
  · exact h.withChunk hlap
  · exact h.handOut htop hnext hlast
  · exact ⟨h.counted, h.inOrder, h.waiting⟩

theorem lapped_of_run {es : List Event} (h : Run (LappedStep stream) {} es d) :
    d.Lapped stream :=
  Run.invariant (I := Lapped stream) (fun _ _ _ hd hstep => hd.step hstep) h lapped_init

/-! ## Calls of `process_symbol` -/

/-- The loop puts what the codec recovers to the other chunks. -/
theorem decodeLoop_chunks (rounds : Nat) (h : decodeLoop rounds d = .ok () d') :
    ∃ (recovered : List Symbol) (x : StreamFecDecoder S),
      d' = { recovered.foldl ContinuousStreamDecoder.withChunk d with decoder := x } := by
  refine invariant_of_decodeLoop (I := fun t => ∃ (recovered : List Symbol)
    (x : StreamFecDecoder S), t = { recovered.foldl ContinuousStreamDecoder.withChunk d with
      decoder := x }) ?_ ?_ rounds ⟨[], d.decoder, rfl⟩ h
  · rintro t ⟨recovered, x, rfl⟩ _
    exact ⟨recovered, _, rfl⟩
  · rintro t ⟨recovered, x, rfl⟩ -
    refine ⟨recovered ++ (S.decode x.decoder).2.1.map fun packet => (packet.2, packet.1),
      ⟨(S.decode x.decoder).2.2⟩, ?_⟩
    rw [List.foldl_append]
    exact foldl_withChunk_onDecoder _ (recovered.foldl ContinuousStreamDecoder.withChunk d) _

theorem run_arrives (stream : Nat → Bytes) : ∀ (numbers : List Nat) (d : ContinuousStreamDecoder S),
    Run (Step stream) d (numbers.map .arrives)
      ((numbers.map (numbered stream)).foldl ContinuousStreamDecoder.withChunk d) := by
  intro numbers
  induction numbers with
  | nil => exact fun d => .nil d
  | cons c numbers ih =>
      intro d
      exact Run.cons (.arrives c (processOriginalChunk_apply _ _ d)) (ih _)

/-- A call of `process_symbol` is a run in which chunks arrive, as long as what is received
and recovered are chunks of the stream. -/
theorem run_of_processSymbol {rounds : Nat} {data : Bytes} {index : Nat}
    (h : processSymbol rounds data index d = .ok () d') : ∃ recovered : List Symbol,
      ∀ numbers : List Nat, numbers.map (numbered stream) =
        (if index = packetIndexFec then [] else [(data, index)]) ++ recovered →
          Run (Step stream) d (numbers.map .arrives ++ [.codec]) d' := by
  obtain ⟨x, -, h⟩ := processSymbol_ok_iff.mp h
  obtain ⟨recovered, y, rfl⟩ := decodeLoop_chunks rounds h
  refine ⟨recovered, ?_⟩
  intro numbers hnumbers
  have hrun := run_arrives stream numbers d
  rw [hnumbers, List.foldl_append] at hrun
  have hcodec := hrun.snoc (.codec y)
  by_cases hfec : index = packetIndexFec
  · simpa [hfec, foldl_withChunk_onDecoder] using hcodec
  · rw [if_neg hfec] at hcodec ⊢
    have hx : ContinuousStreamDecoder.withChunk { d with decoder := x } (data, index) =
        { d.withChunk (data, index) with decoder := x } := rfl
    rw [hx, foldl_withChunk_onDecoder]
    exact hcodec

/-- **Around the end of the packet numbers.** In every run a chunk that arrives is discarded
rightly exactly if it is in the lap of the next one expected. If that is so of all of them,
and no lap's last chunk is handed out while a second copy of it waits, the chunks are handed
out in order. -/
theorem survives_wraparound {es : List Event} (hrun : Run (NearStep stream) {} es d)
    (hstep : NearStep stream d e d') : (d.DiscardsRightly e d' ↔ d.InLap e) ∧
      (Run (LappedStep stream) {} (es ++ [e]) d' → d'.InOrder stream) := by
  have hcounted : d.Counted :=
    Run.invariant (I := Counted) (fun _ _ _ hd hstep => hd.step hstep.1) hrun counted_init
  refine ⟨hcounted.discardsRightly_iff hstep, ?_⟩
  intro hlapped
  exact (lapped_of_run hlapped).inOrder

end steps

/-! ### The first chunk of the second lap -/

/-- The decoder once chunks `0 .. n - 1` arrived in order, each handed out at once. -/
def drained (stream : Nat → Bytes) (n : Nat) : ContinuousStreamDecoder S where
  nextIndex := n % siamesePacketNumCount
  handedOut := (List.range n).map stream
  processed := (List.range n).map (· % siamesePacketNumCount)

@[simp] theorem length_drained (stream : Nat → Bytes) (n : Nat) :
    (drained stream n : ContinuousStreamDecoder S).handedOut.length = n := by
  simp [drained]

/-- Chunk `c` arrives at such a decoder. -/
theorem drained_arrives (stream : Nat → Bytes) {n c : Nat} (hahead : c ≤ n + 2 ^ 21)
    (hbehind : n ≤ c + 2 ^ 21) : NearStep stream (drained stream n) (.arrives c)
      ((drained stream n : ContinuousStreamDecoder S).withChunk (numbered stream c)) := by
  refine ⟨.arrives c (processOriginalChunk_apply _ _ _), ?_⟩
  simpa [Near] using ⟨hahead, hbehind⟩

theorem drained_inLap_iff (stream : Nat → Bytes) {n c : Nat} :
    (drained stream n : ContinuousStreamDecoder S).InLap (.arrives c) ↔
      c / siamesePacketNumCount = n / siamesePacketNumCount := by
  simp [InLap]

/-- Chunk `n` arrives and is handed out. -/
theorem drained_step (stream : Nat → Bytes) (n : Nat) :
    ∃ d : ContinuousStreamDecoder S, LappedStep stream (drained stream n) (.arrives n) d ∧
      LappedStep stream d .getChunk (drained stream (n + 1)) := by
  have hahead : ((drained stream n : ContinuousStreamDecoder S).withChunk
      (numbered stream n)).symbolsAhead.c = [numbered stream n] :=
    withChunk_of_ahead (lt_irrefl (n % siamesePacketNumCount))
  have htop : ((drained stream n : ContinuousStreamDecoder S).withChunk
      (numbered stream n)).symbolsAhead.top = some (numbered stream n) := by
    unfold MovablePriorityQueue.top
    rw [hahead]
    rfl
  have hnext : ((drained stream n : ContinuousStreamDecoder S).withChunk
      (numbered stream n)).handOut (numbered stream n) = drained stream (n + 1) := by
    unfold ContinuousStreamDecoder.handOut
    rw [hahead]
    simp [drained, numbered, ContinuousStreamDecoder.withChunk, siamesePacketNumInc,
      List.range_succ]
  refine ⟨_, ⟨drained_arrives stream (by omega) (by omega), (drained_inLap_iff stream).mpr rfl,
    trivial⟩, ⟨?_, trivial⟩, trivial, ?_⟩
  · rw [← hnext]
    exact .getChunk (hasData_iff.mpr ⟨_, htop, rfl⟩) (getChunk_of_top htop)
  · intro _
    rw [hahead]
    rfl

theorem drained_reached (stream : Nat → Bytes) (n : Nat) :
    ∃ es, Run (LappedStep stream) ({} : ContinuousStreamDecoder S) es (drained stream n) := by
  induction n with
  | zero => exact ⟨[], .nil _⟩
  | succ n ih =>
      obtain ⟨es, hrun⟩ := ih
      obtain ⟨d, harrives, hget⟩ := drained_step (S := S) stream n
      exact ⟨_, (hrun.snoc harrives).snoc hget⟩

/-- Chunk `c` is its own number. -/
def numbers (c : Nat) : Bytes := store32 (UInt32.ofNat c)

/-- Chunk 2²² arrives when it is the next one expected. -/
theorem survives_wraparound_next_lap : ∃ d : ContinuousStreamDecoder echoing,
    Step numbers (drained numbers siamesePacketNumCount) (.arrives siamesePacketNumCount) d ∧
      (drained numbers siamesePacketNumCount).DiscardsRightly (.arrives siamesePacketNumCount) d ∧
      d.InOrder numbers := by
  obtain ⟨es, hrun⟩ := drained_reached (S := echoing) numbers siamesePacketNumCount
  obtain ⟨d, hstep, -⟩ := drained_step (S := echoing) numbers siamesePacketNumCount
  have hsurvives := survives_wraparound (hrun.mono fun _ _ _ h => h.1) hstep.1
  exact ⟨d, hstep.1.1, hsurvives.1.mpr hstep.2.1, hsurvives.2 (hrun.snoc hstep)⟩

/-- **The decoder does not survive wraparound.** Chunk 2²² arrives before chunk 2²² - 1, and
is discarded as if it had been handed out. -/
theorem first_chunk_of_lap_discarded : ¬SurvivesWraparound echoing := by
  intro h
  obtain ⟨n, hn⟩ : ∃ n, n + 1 = siamesePacketNumCount := ⟨2 ^ 22 - 1, rfl⟩
  obtain ⟨es, hrun⟩ := drained_reached (S := echoing) numbers n
  have hnear := hrun.mono fun _ _ _ h => h.1
  have hstep := drained_arrives (S := echoing) numbers (show n + 1 ≤ n + 2 ^ 21 by omega)
    (by omega)
  have hcounted : (drained numbers n : ContinuousStreamDecoder echoing).Counted :=
    (lapped_of_run hrun).counted
  have hright := (h numbers es _ _ _ hnear hstep).1
  have hlap := (drained_inLap_iff numbers).mp ((hcounted.discardsRightly_iff hstep).mp hright)
  unfold siamesePacketNumCount at hn hlap
  omega

end FecRelay.ContinuousStreamDecoder
