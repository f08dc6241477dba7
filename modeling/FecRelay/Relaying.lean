import FecRelay.Stream

/-!
# What a hop of a stream keeps

Seen from a relay, the encoder before it has added some chunks and emitted some
recovery symbols. The relay's decoder hands out these chunks in order and from the
start, its encoder adds what was handed out, and the symbols that are got from the
encoder carry what it added and emitted.
-/

namespace FecRelay

open FecRelay.Base

variable {S : Siamese}

/-- The symbol is one of an encoder that has added `added` and emitted `emitted`. -/
def Carries (added emitted : List Bytes) (symbol : Symbol) : Prop :=
  if symbol.2 = packetIndexFec then symbol.1 ∈ emitted else added[symbol.2]? = some symbol.1

theorem Carries.mono {added emitted added' emitted' : List Bytes} {symbol : Symbol}
    (h : Carries added emitted symbol) (hadded : added <+: added')
    (hemitted : emitted <+: emitted') : Carries added' emitted' symbol := by
  unfold Carries at h ⊢
  split at h
  · next hfec =>
      rw [if_pos hfec]
      exact hemitted.subset h
  · next hfec =>
      rw [if_neg hfec]
      exact Reassembly.getElem?_of_prefix hadded h

theorem carries_recovery {added emitted : List Bytes} {data : Bytes} (h : data ∈ emitted) :
    Carries added emitted (data, packetIndexFec) := by
  unfold Carries
  rw [if_pos rfl]
  exact h

theorem carries_original {added emitted : List Bytes} {symbol : Symbol}
    (h : added[symbol.2]? = some symbol.1) (hcount : added.length < siamesePacketNumCount) :
    Carries added emitted symbol := by
  have hindex := (List.getElem?_eq_some_iff.mp h).1
  have hfec : symbol.2 ≠ packetIndexFec := by
    unfold siamesePacketNumCount at hcount
    unfold packetIndexFec
    omega
  unfold Carries
  rw [if_neg hfec]
  exact h

/-! ## The decoder -/

namespace ContinuousStreamDecoder

/-- The decoder was given symbols of an encoder that has added `added` and emitted
`emitted`, and has handed out what was added, in order. -/
structure Follows (added emitted : List Bytes) (d : ContinuousStreamDecoder S) : Prop where
  fed : S.Fed added emitted d.decoder.decoder
  ahead : ∀ symbol ∈ d.symbolsAhead.c, added[symbol.2]? = some symbol.1
  next : d.nextIndex = d.handedOut.length
  handedOut : d.handedOut <+: added

variable {added emitted : List Bytes} {d d' : ContinuousStreamDecoder S}

theorem follows_init : ({} : ContinuousStreamDecoder S).Follows added emitted where
  fed := .create
  ahead _ hsymbol := absurd hsymbol List.not_mem_nil
  next := rfl
  handedOut := List.nil_prefix

theorem Follows.mono {added' emitted' : List Bytes} (h : d.Follows added emitted)
    (hadded : added <+: added') (hemitted : emitted <+: emitted') :
    d.Follows added' emitted' where
  fed := h.fed.mono hadded hemitted
  ahead symbol hsymbol := Reassembly.getElem?_of_prefix hadded (h.ahead symbol hsymbol)
  next := h.next
  handedOut := h.handedOut.trans hadded

theorem Follows.onDecoder (h : d.Follows added emitted) {x : StreamFecDecoder S}
    (hx : S.Fed added emitted x.decoder) :
    ({ d with decoder := x } : ContinuousStreamDecoder S).Follows added emitted :=
  { h with fed := hx }

/-- A chunk that is an added one waits, or came too late. -/
theorem Follows.withChunk (h : d.Follows added emitted) {symbol : Symbol}
    (hsymbol : added[symbol.2]? = some symbol.1) : (d.withChunk symbol).Follows added emitted := by
  refine ⟨h.fed, ?_, h.next, h.handedOut⟩
  intro x hx
  unfold ContinuousStreamDecoder.withChunk at hx
  dsimp only at hx
  split at hx
  · exact h.ahead x hx
  · rcases List.mem_append.mp hx with hx | hx
    · exact h.ahead x hx
    · rw [List.mem_singleton.mp hx]
      exact hsymbol

theorem Follows.foldl_withChunk {chunks : List Symbol} (h : d.Follows added emitted)
    (hchunks : ∀ chunk ∈ chunks, added[chunk.2]? = some chunk.1) :
    (chunks.foldl ContinuousStreamDecoder.withChunk d).Follows added emitted := by
  induction chunks generalizing d with
  | nil => exact h
  | cons chunk chunks ih =>
      apply ih (h.withChunk (hchunks chunk List.mem_cons_self))
      intro c hc
      exact hchunks c (List.mem_cons_of_mem _ hc)

/-- The chunk that is next in order is the next added one. -/
theorem Follows.handOut (h : d.Follows added emitted)
    (hcount : added.length < siamesePacketNumCount) {symbol : Symbol}
    (htop : d.symbolsAhead.top = some symbol) (hnext : symbol.2 = d.nextIndex) :
    (d.handOut symbol).Follows added emitted := by
  have hsymbol := h.ahead symbol (PriorityBag.top_mem htop)
  rw [hnext, h.next] at hsymbol
  have hlt := (List.getElem?_eq_some_iff.mp hsymbol).1
  refine ⟨h.fed, ?_, ?_, Reassembly.snoc_prefix h.handedOut hsymbol⟩
  · intro x hx
    exact h.ahead x (List.mem_of_mem_erase hx)
  · show siamesePacketNumInc d.nextIndex = (d.handedOut ++ [symbol.1]).length
    rw [h.next, siamesePacketNumInc_of_lt (by omega), List.length_append, List.length_singleton]

section codec

variable {encoder : S.Encoder} (hlaw : S.Recovers) (hrun : S.EncoderRun added emitted encoder)
  (hcount : added.length < siamesePacketNumCount)
include hlaw hrun hcount

/-- The loop hands on what the codec recovers, and these are added chunks. -/
theorem Follows.decodeLoop (rounds : Nat) {d d' : ContinuousStreamDecoder S}
    (hd : d.Follows added emitted) (h : decodeLoop rounds d = .ok () d') :
    d'.Follows added emitted := by
  refine invariant_of_decodeLoop (I := fun t => t.Follows added emitted) ?_ ?_ rounds hd h
  · intro t ht _
    exact ht.onDecoder (.isReady ht.fed)
  · intro t ht hsuccess
    refine (ht.onDecoder (.decode ht.fed)).foldl_withChunk ?_
    intro chunk hchunk
    obtain ⟨packet, hpacket, rfl⟩ := List.mem_map.mp hchunk
    exact hlaw _ _ _ _ hrun hcount.le ht.fed hsuccess packet hpacket

theorem Follows.processSymbol {rounds : Nat} {symbol : Symbol} (hd : d.Follows added emitted)
    (hsymbol : Carries added emitted symbol)
    (h : ContinuousStreamDecoder.processSymbol rounds symbol.1 symbol.2 d = .ok () d') :
    d'.Follows added emitted := by
  obtain ⟨x, hx, h⟩ := processSymbol_ok_iff.mp h
  have hdecoder := StreamFecDecoder.processSymbol_ok hx
  unfold Carries at hsymbol
  apply Follows.decodeLoop hlaw hrun hcount rounds ?_ h
  by_cases hfec : symbol.2 = packetIndexFec
  · rw [if_pos hfec] at hdecoder hsymbol ⊢
    apply hd.onDecoder
    rw [hdecoder]
    exact .addRecovery hd.fed hsymbol
  · rw [if_neg hfec] at hdecoder hsymbol ⊢
    refine Follows.withChunk (hd.onDecoder ?_) hsymbol
    rw [hdecoder]
    exact .addOriginal hd.fed hsymbol

end codec

/-- An ack is none of the order's business. -/
theorem Follows.generateAck {ack : Bytes} (hd : d.Follows added emitted)
    (h : ContinuousStreamDecoder.generateAck d = .ok ack d') :
    d'.Follows added emitted ∧ d'.handedOut = d.handedOut := by
  unfold ContinuousStreamDecoder.generateAck ContinuousStreamDecoder.onDecoder at h
  obtain ⟨x, hx, rfl⟩ := Method.zoom_ok_iff.mp h
  refine ⟨hd.onDecoder ?_, rfl⟩
  rw [StreamFecDecoder.generateAck_ok hx]
  exact .ack _ hd.fed

theorem processSymbol_handedOut {rounds : Nat} {data : Bytes} {index : Nat}
    (h : ContinuousStreamDecoder.processSymbol rounds data index d = .ok () d') :
    d'.handedOut = d.handedOut := by
  have hfold : ∀ (chunks : List Symbol) (d : ContinuousStreamDecoder S),
      (chunks.foldl ContinuousStreamDecoder.withChunk d).handedOut = d.handedOut := by
    intro chunks
    induction chunks with
    | nil => exact fun d => rfl
    | cons chunk chunks ih => exact fun d => ih (d.withChunk chunk)
  obtain ⟨x, _, h⟩ := processSymbol_ok_iff.mp h
  refine invariant_of_decodeLoop (I := fun t => t.handedOut = d.handedOut) (fun _ ht _ => ht)
    (fun t ht _ => (hfold _ _).trans ht) rounds ?_ h
  split <;> rfl

end ContinuousStreamDecoder

/-! ## The encoder -/

namespace ContinuousStreamEncoder

/-- The encoder was given `input` in order: it added what is no longer pending. -/
structure Sends (input : List Bytes) (e : ContinuousStreamEncoder S) : Prop where
  recorded : e.encoder.Recorded
  input_eq : e.encoder.added ++ e.pending = input

/-- The encoder has added and emitted more since. -/
structure Advances (e e' : ContinuousStreamEncoder S) : Prop where
  added : e.encoder.added <+: e'.encoder.added
  emitted : e.encoder.emitted <+: e'.encoder.emitted

theorem Advances.refl (e : ContinuousStreamEncoder S) : Advances e e :=
  ⟨List.prefix_refl _, List.prefix_refl _⟩

theorem Advances.trans {e e' e'' : ContinuousStreamEncoder S} (h : Advances e e')
    (h' : Advances e' e'') : Advances e e'' :=
  ⟨h.added.trans h'.added, h.emitted.trans h'.emitted⟩

variable {input : List Bytes} {e e' : ContinuousStreamEncoder S}

theorem sends_init : ({} : ContinuousStreamEncoder S).Sends [] where
  recorded := .create
  input_eq := rfl

theorem Sends.added_prefix (h : e.Sends input) : e.encoder.added <+: input :=
  ⟨e.pending, h.input_eq⟩

theorem Sends.queueChunk (h : e.Sends input) (chunk : Bytes) :
    ({ e with pending := e.pending ++ [chunk] } : ContinuousStreamEncoder S).Sends
      (input ++ [chunk]) := by
  refine ⟨h.recorded, ?_⟩
  show e.encoder.added ++ (e.pending ++ [chunk]) = input ++ [chunk]
  rw [← List.append_assoc, h.input_eq]

theorem Sends.processAck {message : Bytes} (h : e.Sends input)
    (hcall : ContinuousStreamEncoder.processAck message e = .ok () e') :
    e'.Sends input ∧ Advances e e' := by
  obtain ⟨expects, rfl⟩ := processAck_ok hcall
  exact ⟨⟨.ack message h.recorded, h.input_eq⟩, List.prefix_refl _, List.prefix_refl _⟩

section codec

variable (hlaw : S.Numbers) (hcount : input.length < siamesePacketNumCount)
include hlaw hcount

/-- The symbol that is got is a new recovery symbol, or the chunk in front under the
number of its place. -/
theorem Sends.getSymbol {ratio : Rat} {symbol : Symbol} (h : e.Sends input)
    (hcall : ContinuousStreamEncoder.getSymbol ratio e = .ok symbol e') :
    e'.Sends input ∧ Advances e e' ∧
      Carries e'.encoder.added e'.encoder.emitted symbol := by
  rcases getSymbol_ok_iff.mp hcall with ⟨_, x, hx, rfl⟩ | ⟨_, rest, x, hpending, hx, rfl⟩
  · obtain ⟨hsuccess, rfl, rfl⟩ := StreamFecEncoder.generateFecSymbol_ok_iff.mp hx
    refine ⟨⟨.encode h.recorded hsuccess, h.input_eq⟩,
      ⟨List.prefix_refl _, List.prefix_append _ _⟩, carries_recovery ?_⟩
    exact List.mem_append_right _ List.mem_cons_self
  · obtain ⟨hsuccess, hnum, rfl⟩ := StreamFecEncoder.addChunk_ok_iff.mp hx
    have hinput := h.input_eq
    rw [hpending] at hinput
    have hlength : (e.encoder.added ++ [symbol.1]).length ≤ input.length := by
      rw [← hinput]
      simp
    rw [List.length_append, List.length_singleton] at hlength
    have hindex : symbol.2 = e.encoder.added.length := by
      rw [hnum, hlaw _ _ _ _ h.recorded hsuccess]
      exact Nat.mod_eq_of_lt (by omega)
    refine ⟨⟨.add h.recorded hsuccess, ?_⟩, ⟨List.prefix_append _ _, List.prefix_refl _⟩,
      carries_original ?_ ?_⟩
    · show e.encoder.added ++ [symbol.1] ++ e.pending.tail = input
      rw [hpending, List.append_assoc]
      exact hinput
    · show (e.encoder.added ++ [symbol.1])[symbol.2]? = some symbol.1
      rw [hindex, List.getElem?_concat_length]
    · show (e.encoder.added ++ [symbol.1]).length < siamesePacketNumCount
      rw [List.length_append, List.length_singleton]
      omega

/-- All symbols that a drain gets are symbols of the encoder it leaves. -/
theorem Sends.drainSymbols {ratio : Rat} : ∀ (rounds : Nat) {e e' : ContinuousStreamEncoder S}
    {symbols : List Symbol}, e.Sends input →
    ContinuousStreamEncoder.drainSymbols ratio rounds e = .ok symbols e' →
    e'.Sends input ∧ Advances e e' ∧
      ∀ symbol ∈ symbols, Carries e'.encoder.added e'.encoder.emitted symbol := by
  intro rounds
  induction rounds with
  | zero => intro e e' symbols _ h; cases h
  | succ rounds ih =>
      intro e e' symbols he h
      rcases drainSymbols_ok_iff.mp h with ⟨_, rfl, rfl⟩ |
        ⟨_, symbol, e₁, rest, hsymbol, hrest, rfl⟩
      · exact ⟨he, Advances.refl _, fun symbol hsymbol => absurd hsymbol List.not_mem_nil⟩
      · obtain ⟨hsends₁, hadvances₁, hcarries₁⟩ := he.getSymbol hlaw hcount hsymbol
        obtain ⟨hsends, hadvances, hcarries⟩ := ih hsends₁ hrest
        refine ⟨hsends, hadvances₁.trans hadvances, ?_⟩
        intro s hs
        rcases List.mem_cons.mp hs with rfl | hs
        · exact hcarries₁.mono hadvances.added hadvances.emitted
        · exact hcarries s hs

end codec

end ContinuousStreamEncoder

/-! ## The relay -/

namespace ContinuousStream

/-- The decoder follows the encoder before, and the own encoder is given what the
decoder hands out. -/
structure Relays (added emitted : List Bytes) (s : ContinuousStream S) : Prop where
  follows : s.decoder.Follows added emitted
  sends : s.encoder.Sends s.decoder.handedOut

variable {added emitted : List Bytes} {s s' : ContinuousStream S}

theorem relays_init : ({} : ContinuousStream S).Relays added emitted where
  follows := ContinuousStreamDecoder.follows_init
  sends := ContinuousStreamEncoder.sends_init

theorem Relays.passOn (h : s.Relays added emitted)
    (hcount : added.length < siamesePacketNumCount) {symbol : Symbol}
    (htop : s.decoder.symbolsAhead.top = some symbol) (hnext : symbol.2 = s.decoder.nextIndex) :
    (s.passOn symbol).Relays added emitted where
  follows := h.follows.handOut hcount htop hnext
  sends := h.sends.queueChunk symbol.1

/-- Passing chunks on adds and emits nothing yet. -/
theorem Relays.relayChunks (h : s.Relays added emitted)
    (hcount : added.length < siamesePacketNumCount) (hcall : relayChunks s = .ok () s') :
    s'.Relays added emitted ∧ s'.encoder.encoder = s.encoder.encoder := by
  obtain ⟨s₁, heq, hs₁, _⟩ := relayChunks_spec
    (I := fun t => t.Relays added emitted ∧ t.encoder.encoder = s.encoder.encoder)
    (fun t symbol ht htop hnext => ⟨ht.1.passOn hcount htop hnext, ht.2⟩) ⟨h, rfl⟩
  rw [hcall] at heq
  cases heq
  exact hs₁

end ContinuousStream

end FecRelay
