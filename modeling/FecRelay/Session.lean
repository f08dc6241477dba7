import FecRelay.Base.Run
import FecRelay.Codec.EncoderWindow
import FecRelay.Ratio

/-!
# Using a stream encoder

Chunks are queued to a `ContinuousStreamEncoder`, symbols are got from it while it says
that there are some, and acks are passed to it, in any order. Whatever is queued is added
to the codec in the end, or still pending.
-/

namespace FecRelay.ContinuousStreamEncoder

open FecRelay.Base

variable {S : Siamese} {ratio : Rat} {e e' : ContinuousStreamEncoder S}

/-- A call on an encoder, with the symbol that it got if it is a `get_symbol`. -/
inductive Event where
  | queueChunk (chunk : Bytes)
  | getSymbol (symbol : Symbol)
  | processAck (message : Bytes)
  deriving DecidableEq, Repr

namespace Event

def chunk? : Event → Option Bytes
  | .queueChunk chunk => some chunk
  | _ => none

def symbol? : Event → Option Symbol
  | .getSymbol symbol => some symbol
  | _ => none

def message? : Event → Option Bytes
  | .processAck message => some message
  | _ => none

end Event

/-- A call that returned. Symbols are asked for only while there is data. -/
inductive Step (ratio : Rat) :
    ContinuousStreamEncoder S → Event → ContinuousStreamEncoder S → Prop
  | queueChunk {e e' : ContinuousStreamEncoder S} (chunk : Bytes) :
      queueChunk chunk e = .ok () e' → Step ratio e (.queueChunk chunk) e'
  | getSymbol {e e' : ContinuousStreamEncoder S} (symbol : Symbol) :
      e.hasData ratio = true → getSymbol ratio e = .ok symbol e' →
      Step ratio e (.getSymbol symbol) e'
  | processAck {e e' : ContinuousStreamEncoder S} (message : Bytes) :
      processAck message e = .ok () e' → Step ratio e (.processAck message) e'

/-- A call that returned, where the comparison of the counters may overflow. -/
inductive IntStep (ratio : Rat) :
    ContinuousStreamEncoder S → Event → ContinuousStreamEncoder S → Prop
  | queueChunk {e e' : ContinuousStreamEncoder S} (chunk : Bytes) :
      queueChunk chunk e = .ok () e' → IntStep ratio e (.queueChunk chunk) e'
  | getSymbol {e e' : ContinuousStreamEncoder S} (symbol : Symbol) :
      e.hasDataInt ratio = .ok true → getSymbolInt ratio e = .ok symbol e' →
      IntStep ratio e (.getSymbol symbol) e'
  | processAck {e e' : ContinuousStreamEncoder S} (message : Bytes) :
      processAck message e = .ok () e' → IntStep ratio e (.processAck message) e'

/-- Calls that return have not overflowed. -/
theorem IntStep.step {x : Event} (h : IntStep ratio e x e') :
    Step ratio e x e' ∧ (x.symbol?.isSome = true → e.Fits ratio) := by
  cases h with
  | queueChunk chunk hcall => exact ⟨.queueChunk chunk hcall, by simp [Event.symbol?]⟩
  | processAck message hcall => exact ⟨.processAck message hcall, by simp [Event.symbol?]⟩
  | getSymbol symbol hdata hcall =>
      obtain ⟨hfits, hcall⟩ := getSymbolInt_ok_iff.mp hcall
      rw [hasDataInt_of_fits hfits] at hdata
      exact ⟨.getSymbol symbol (Except.ok.inj hdata) hcall, fun _ => hfits⟩

/-! ## What a call does -/

/-- Chunks are added in the order they were queued in. -/
theorem Step.input {x : Event} (h : Step ratio e x e') : e'.encoder.added ++ e'.pending =
    e.encoder.added ++ e.pending ++ x.chunk?.toList := by
  cases h with
  | queueChunk chunk hcall =>
      cases hcall
      show e.encoder.added ++ (e.pending ++ [chunk]) = e.encoder.added ++ e.pending ++ [chunk]
      rw [List.append_assoc]
  | getSymbol symbol _ hcall =>
      rw [show (Event.getSymbol symbol).chunk?.toList = [] from rfl, List.append_nil]
      rcases getSymbol_ok_iff.mp hcall with ⟨_, x, hx, rfl⟩ | ⟨_, rest, x, hpending, hx, rfl⟩
      · obtain ⟨-, -, rfl⟩ := StreamFecEncoder.generateFecSymbol_ok_iff.mp hx
        rfl
      · obtain ⟨-, -, rfl⟩ := StreamFecEncoder.addChunk_ok_iff.mp hx
        show e.encoder.added ++ [symbol.1] ++ e.pending.tail = e.encoder.added ++ e.pending
        rw [hpending, List.append_assoc]
        rfl
  | processAck message hcall =>
      obtain ⟨expects, rfl⟩ := processAck_ok hcall
      rw [show (Event.processAck message).chunk?.toList = [] from rfl, List.append_nil]

/-- What was queued in a run was added, or is pending. -/
theorem input_of_run {events : List Event} (h : Run (Step ratio) {} events e) :
    e.encoder.added ++ e.pending = events.filterMap Event.chunk? := by
  induction h with
  | nil => rfl
  | @snoc e₁ e₂ events x _ hstep ih =>
      rw [hstep.input, ih, List.filterMap_append]
      cases x <;> rfl

/-- The codec's encoder was only used through the calls of the interface. -/
theorem Step.recorded {x : Event} (h : Step ratio e x e') (he : e.encoder.Recorded) :
    e'.encoder.Recorded := by
  cases h with
  | queueChunk chunk hcall =>
      cases hcall
      exact he
  | getSymbol symbol _ hcall =>
      rcases getSymbol_ok_iff.mp hcall with ⟨_, x, hx, rfl⟩ | ⟨_, rest, x, _, hx, rfl⟩
      · obtain ⟨hsuccess, -, rfl⟩ := StreamFecEncoder.generateFecSymbol_ok_iff.mp hx
        exact .encode he hsuccess
      · obtain ⟨hsuccess, -, rfl⟩ := StreamFecEncoder.addChunk_ok_iff.mp hx
        exact .add he hsuccess
  | processAck message hcall =>
      obtain ⟨expects, rfl⟩ := processAck_ok hcall
      exact .ack _ he

theorem recorded_of_run {events : List Event} (h : Run (Step ratio) {} events e) :
    e.encoder.Recorded :=
  Run.invariant (I := fun e : ContinuousStreamEncoder S => e.encoder.Recorded)
    (fun _ _ _ he hstep => Step.recorded hstep he) h .create

/-! ## Pace -/

theorem Step.paced (hratio : Regular ratio) {x : Event} (h : Step ratio e x e')
    (he : e.Paced ratio) : e'.Paced ratio := by
  cases h with
  | queueChunk chunk hcall =>
      cases hcall
      exact he
  | getSymbol symbol _ hcall => exact (he.getSymbol_cases hratio hcall).1
  | processAck message hcall =>
      obtain ⟨expects, rfl⟩ := processAck_ok hcall
      exact he

theorem paced_of_run (hratio : Regular ratio) {events : List Event}
    (h : Run (Step ratio) {} events e) : e.Paced ratio :=
  Run.invariant (fun _ _ _ he hstep => hstep.paced hratio he) h paced_init

/-- A drain that returns got its symbols one by one, until there was no data. -/
theorem run_of_drainSymbolsInt : ∀ (rounds : Nat) {e e' : ContinuousStreamEncoder S}
    {symbols : List Symbol}, drainSymbolsInt ratio rounds e = .ok symbols e' →
    Run (IntStep ratio) e (symbols.map Event.getSymbol) e' ∧ e'.hasDataInt ratio = .ok false := by
  intro rounds
  induction rounds with
  | zero => intro e e' symbols h; cases h
  | succ rounds ih =>
      intro e e' symbols h
      rw [drainSymbolsInt, Method.bind_of_ok (Method.get_apply e)] at h
      obtain ⟨more, hmore, h⟩ := Method.lift_bind_ok_iff.mp h
      cases more with
      | false =>
          obtain ⟨rfl, rfl⟩ := Method.pure_ok_iff.mp h
          exact ⟨.nil e, hmore⟩
      | true =>
          rw [if_pos rfl] at h
          obtain ⟨symbol, e₁, hsymbol, h⟩ := Method.bind_ok_iff.mp h
          obtain ⟨rest, e₂, hrest, h⟩ := Method.bind_ok_iff.mp h
          obtain ⟨rfl, rfl⟩ := Method.pure_ok_iff.mp h
          obtain ⟨hrun, hend⟩ := ih hrest
          exact ⟨Run.cons (.getSymbol symbol hmore hsymbol) hrun, hend⟩

/-- A drain that returns got its symbols one by one, until there was no data. -/
theorem run_of_drainSymbols : ∀ (rounds : Nat) {e e' : ContinuousStreamEncoder S}
    {symbols : List Symbol}, drainSymbols ratio rounds e = .ok symbols e' →
    Run (Step ratio) e (symbols.map Event.getSymbol) e' ∧ e'.hasData ratio = false := by
  intro rounds
  induction rounds with
  | zero => intro e e' symbols h; cases h
  | succ rounds ih =>
      intro e e' symbols h
      rcases drainSymbols_ok_iff.mp h with ⟨hdata, rfl, rfl⟩ |
        ⟨hdata, symbol, e₁, rest, hsymbol, hrest, rfl⟩
      · exact ⟨.nil _, hdata⟩
      · obtain ⟨hrun, hend⟩ := ih hrest
        exact ⟨Run.cons (.getSymbol symbol hdata hsymbol) hrun, hend⟩

/-- Where nothing overflows, the loop does as if nothing could. -/
theorem drainSymbolsInt_eq (hratio : 0 < ratio)
    (hfits : ∀ k < numerator ratio, QuotientFits ratio k) :
    ∀ (rounds : Nat) {e : ContinuousStreamEncoder S}, e.segmentFecIndex < numerator ratio →
      drainSymbolsInt ratio rounds e = drainSymbols ratio rounds e := by
  intro rounds
  induction rounds with
  | zero => intro e _; rfl
  | succ rounds ih =>
      intro e hindex
      have he : e.Fits ratio := hfits _ hindex
      rw [drainSymbolsInt, drainSymbols, Method.bind_of_ok (Method.get_apply e),
        Method.bind_of_ok (Method.get_apply e), hasDataInt_of_fits he,
        Method.bind_of_ok (Method.lift_ok _ e)]
      cases e.hasData ratio with
      | false => rfl
      | true =>
          rw [if_pos rfl, if_pos rfl, Method.bind_apply, Method.bind_apply,
            getSymbolInt_of_fits he]
          cases hsymbol : getSymbol ratio e with
          | error fault e₁ => rfl
          | ok symbol e₁ =>
              have hindex₁ : e₁.segmentFecIndex < numerator ratio := by
                rcases getSymbol_ok_iff.mp hsymbol with ⟨_, x, _, rfl⟩ | ⟨_, rest, x, _, _, rfl⟩
                · exact Nat.mod_lt _ (numerator_pos hratio)
                · exact hindex
              dsimp only
              rw [Method.bind_apply, Method.bind_apply, ih hindex₁]

/-! ## A codec with a window -/

section window

variable {view : S.Encoder → SiameseEncoder}

/-- What the encoder's window must be like for the next symbol: a recovery symbol covers
something, and a chunk is acceptable and finds a slot. -/
structure CanSend (ratio : Rat) (view : S.Encoder → SiameseEncoder)
    (e : ContinuousStreamEncoder S) : Prop where
  recovery : e.isNextSymbolFec ratio = true → (view e.encoder.encoder).window.count ≠ 0
  chunk : e.isNextSymbolFec ratio = false → ∀ chunk ∈ e.pending.head?,
    SiameseEncoder.Acceptable chunk ∧ (view e.encoder.encoder).window.count < siameseMaxPackets

theorem getSymbol_returns_iff (hlaw : S.Windowed view) (hdata : e.hasData ratio = true) :
    (∃ symbol e', getSymbol ratio e = .ok symbol e') ↔ e.CanSend ratio view := by
  constructor
  · rintro ⟨symbol, e', hcall⟩
    rcases getSymbol_ok_iff.mp hcall with ⟨hfec, x, hx, -⟩ | ⟨hfec, rest, x, hpending, hx, -⟩
    · obtain ⟨hsuccess, -, -⟩ := StreamFecEncoder.generateFecSymbol_ok_iff.mp hx
      exact ⟨fun _ => hlaw.encode_success_iff.mp hsuccess, by simp [hfec]⟩
    · obtain ⟨hsuccess, -, -⟩ := StreamFecEncoder.addChunk_ok_iff.mp hx
      refine ⟨by simp [hfec], fun _ chunk hchunk => ?_⟩
      rw [hpending] at hchunk
      obtain rfl : symbol.1 = chunk := by simpa using hchunk
      exact hlaw.add_success_iff.mp hsuccess
  · intro hsend
    cases hfec : e.isNextSymbolFec ratio with
    | true =>
        have hsuccess := hlaw.encode_success_iff.mpr (hsend.recovery hfec)
        exact ⟨_, _, getSymbol_ok_iff.mpr (Or.inl ⟨hfec, _,
          StreamFecEncoder.generateFecSymbol_ok_iff.mpr ⟨hsuccess, rfl, rfl⟩, rfl⟩)⟩
    | false =>
        cases hpending : e.pending with
        | nil => simp [hasData, hfec, hpending] at hdata
        | cons chunk rest =>
            have hsuccess := hlaw.add_success_iff.mpr
              (hsend.chunk hfec chunk (by simp [hpending]))
            exact ⟨(chunk, (S.encoderAdd e.encoder.encoder chunk).2.1), _,
              getSymbol_ok_iff.mpr (Or.inr ⟨hfec, rest, _, hpending,
                StreamFecEncoder.addChunk_ok_iff.mpr ⟨hsuccess, rfl, rfl⟩, rfl⟩)⟩

/-- A symbol that is got acknowledges nothing. -/
theorem holds_getSymbol (hlaw : S.Windowed view) {a : Nat}
    (h : (view e.encoder.encoder).Holds e.encoder.added.length a) {symbol : Symbol}
    (hcall : getSymbol ratio e = .ok symbol e') :
    (view e'.encoder.encoder).Holds e'.encoder.added.length a := by
  rcases getSymbol_ok_iff.mp hcall with ⟨_, x, hx, rfl⟩ | ⟨_, rest, x, _, hx, rfl⟩
  · obtain ⟨hsuccess, -, rfl⟩ := StreamFecEncoder.generateFecSymbol_ok_iff.mp hx
    show (view (S.encode e.encoder.encoder).2.2).Holds e.encoder.added.length a
    rw [hlaw.of_encode hsuccess]
    exact h.encode
  · obtain ⟨hsuccess, -, rfl⟩ := StreamFecEncoder.addChunk_ok_iff.mp hx
    show (view (S.encoderAdd e.encoder.encoder symbol.1).2.2).Holds
      (e.encoder.added ++ [symbol.1]).length a
    rw [(hlaw.of_add hsuccess).2, List.length_append, List.length_singleton]
    exact h.add (hlaw.add_success_iff.mp hsuccess).2 _

/-- An ack that says that the first `expects` chunks arrived. -/
def IsAck (message : Bytes) (expects : Nat) : Prop :=
  ∃ ranges, deserializeHeaderPacketNum message = some (expects % siamesePacketNumCount, ranges)

/-- An ack for chunks that were sent acknowledges them, if it is not older than the latest. -/
theorem holds_processAck (hlaw : S.Windowed view) {a : Nat}
    (h : (view e.encoder.encoder).Holds e.encoder.added.length a) {message : Bytes}
    {expects : Nat} (hack : IsAck message expects) (hsent : expects ≤ e.encoder.added.length)
    (hrecent : a < expects + siamesePacketNumCount / 2)
    (hcall : processAck message e = .ok () e') :
    (view e'.encoder.encoder).Holds e'.encoder.added.length (max a expects) ∧
      e'.receiverExpects = max a expects % siamesePacketNumCount := by
  obtain ⟨hsuccess, rfl⟩ := processAck_ok_iff.mp hcall
  obtain ⟨num, ranges, hnum, hview, hexpects⟩ := hlaw.ack _ _ hsuccess
  obtain ⟨ranges', hnum'⟩ := hack
  rw [hnum] at hnum'
  cases hnum'
  have hheld := h.acknowledge hsent hrecent ranges
  refine ⟨?_, ?_⟩
  · show (view (S.encoderAck e.encoder.encoder message).2.2).Holds _ _
    rw [hview]
    exact hheld
  · show (S.encoderAck e.encoder.encoder message).2.1 = _
    rw [hexpects]
    exact hheld.expects

end window

end FecRelay.ContinuousStreamEncoder
