import FecRelay.Codec.Slots
import FecRelay.Faults
import FecRelay.Session

/-!
# Draining a relay's encoder

The handler of a stream packet first passes chunks on to the encoder of the channel, and
then gets symbols from it as long as there are any. With slots in the codec's window for
all chunks, none of them finds the window full; without them the loop does not return.
-/

namespace FecRelay

open FecRelay.Base

/-! ## The loop over an encoder's symbols -/

namespace ContinuousStreamEncoder

variable {S : Siamese} {view : S.Encoder → SiameseEncoder} {ratio : Rat}
  {e e' : ContinuousStreamEncoder S}

/-- The chunks that go out before the next recovery symbol. -/
def untilRecovery (ratio : Rat) (e : ContinuousStreamEncoder S) : Nat :=
  Pacing.due (numerator ratio) ratio.den e.encoder.emitted.length - e.encoder.added.length

/-- The window that the codec's encoder has. -/
abbrev window (view : S.Encoder → SiameseEncoder) (e : ContinuousStreamEncoder S) :
    EncoderPacketWindow := (view e.encoder.encoder).window

/-- The next `m` chunks find slots: those before the next recovery symbol in the window as
it is, and all of them once the recovery symbol has freed what it can. -/
def HasSlots (ratio : Rat) (view : S.Encoder → SiameseEncoder) (m : Nat)
    (e : ContinuousStreamEncoder S) : Prop :=
  (e.window view).slotsTaken + min (e.untilRecovery ratio) m ≤ siameseMaxPackets ∧
    (e.untilRecovery ratio < m → (e.window view).slotsTaken + m ≤
      siameseMaxPackets + (e.window view).slotsFreed)

instance (ratio : Rat) (view : S.Encoder → SiameseEncoder) (m : Nat)
    (e : ContinuousStreamEncoder S) : Decidable (e.HasSlots ratio view m) :=
  inferInstanceAs (Decidable (_ ∧ _))

theorem Paced.untilRecovery_eq_zero_iff (h : e.Paced ratio) (hratio : Regular ratio) :
    e.untilRecovery ratio = 0 ↔ e.isNextSymbolFec ratio = true := by
  rw [h.isNextSymbolFec_iff hratio, ← Pacing.due_le_iff (numerator_pos hratio.pos)
    (by have := hratio.denominator; omega), untilRecovery, Nat.sub_eq_zero_iff_le]

/-- What a symbol that is got does to the slots: a recovery symbol frees some, and a chunk
takes one. -/
theorem getSymbol_slots (hlaw : S.Windowed view) (hratio : Regular ratio)
    (hpaced : e.Paced ratio) {symbol : Symbol}
    (hcall : getSymbol ratio e = .ok symbol e') :
    (e.untilRecovery ratio = 0 ∧ e'.pending = e.pending ∧ e'.window view = (e.window view).encode.2 ∧
      (e.window view).count ≠ 0) ∨
    (e'.untilRecovery ratio + 1 = e.untilRecovery ratio ∧ e.pending = symbol.1 :: e'.pending ∧
      e'.window view = (e.window view).add (SiameseEncoder.packetBytes symbol.1)) := by
  have huntil := hpaced.untilRecovery_eq_zero_iff hratio
  rcases getSymbol_ok_iff.mp hcall with ⟨hfec, x, hx, rfl⟩ | ⟨hfec, rest, x, hpending, hx, rfl⟩
  · obtain ⟨hsuccess, -, rfl⟩ := StreamFecEncoder.generateFecSymbol_ok_iff.mp hx
    refine Or.inl ⟨huntil.mpr hfec, rfl, ?_, hlaw.encode_success_iff.mp hsuccess⟩
    exact congrArg SiameseEncoder.window (hlaw.of_encode hsuccess)
  · obtain ⟨hsuccess, -, rfl⟩ := StreamFecEncoder.addChunk_ok_iff.mp hx
    have hpos : e.untilRecovery ratio ≠ 0 := by
      rw [ne_eq, huntil, hfec]
      exact Bool.false_ne_true
    refine Or.inr ⟨?_, ?_, congrArg SiameseEncoder.window (hlaw.of_add hsuccess).2⟩
    · unfold untilRecovery at hpos ⊢
      show Pacing.due _ _ e.encoder.emitted.length - (e.encoder.added ++ [symbol.1]).length + 1 = _
      rw [List.length_append, List.length_singleton]
      omega
    · show e.pending = symbol.1 :: e.pending.tail
      rw [hpending]
      rfl

/-- The chunks that are left find slots as long as they did before. -/
theorem hasSlots_getSymbol (hlaw : S.Windowed view) (hratio : Regular ratio)
    (hpaced : e.Paced ratio) (hsound : (e.window view).Sound) {symbol : Symbol}
    (hcall : getSymbol ratio e = .ok symbol e') :
    e.HasSlots ratio view e.pending.length ↔ e'.HasSlots ratio view e'.pending.length := by
  unfold HasSlots
  rcases getSymbol_slots hlaw hratio hpaced hcall with
    ⟨hzero, hpending, hwindow, hcount⟩ | ⟨huntil, hpending, hwindow⟩
  · have htaken := EncoderPacketWindow.slotsTaken_encode hsound hcount
    have hfreed := EncoderPacketWindow.slotsFreed_encode hcount
    have hless := (e.window view).slotsFreed_le
    have hfirst := hsound.first_lt hcount
    have hkept := (e.window view).count_le_slotsTaken
    have hle := hsound.slotsTaken_le
    rw [← hwindow] at htaken hfreed
    rw [hpending]
    omega
  · have htaken := (e.window view).slotsTaken_add (SiameseEncoder.packetBytes symbol.1)
    have hfreed := (e.window view).slotsFreed_add (SiameseEncoder.packetBytes symbol.1)
    rw [← hwindow] at htaken hfreed
    rw [hpending, List.length_cons]
    omega

/-- What a drain needs to know of the encoder, and every symbol that is got keeps. -/
theorem sound_of_run (hlaw : S.Windowed view) {events : List Event}
    (hrun : Run (Step ratio) {} events e) : (e.window view).Sound :=
  hlaw.sound (recorded_of_run hrun)

/-- A drain that returns had slots for every chunk. -/
theorem hasSlots_of_drainSymbols (hlaw : S.Windowed view) (hratio : Regular ratio) :
    ∀ (rounds : Nat) {e e' : ContinuousStreamEncoder S} {events : List Event}
      {symbols : List Symbol}, Run (Step ratio) {} events e →
      drainSymbols ratio rounds e = .ok symbols e' → e.HasSlots ratio view e.pending.length := by
  intro rounds
  induction rounds with
  | zero => intro e e' events symbols _ h; cases h
  | succ rounds ih =>
      intro e e' events symbols hrun h
      have hpaced := paced_of_run hratio hrun
      rcases drainSymbols_ok_iff.mp h with ⟨hdata, -, -⟩ | ⟨hdata, symbol, e₁, rest, hcall, hrest, -⟩
      · have hpending := ((hpaced.hasData_eq_false_iff hratio).mp hdata).1
        have hle := (sound_of_run hlaw hrun).slotsTaken_le
        rw [hpending]
        exact ⟨by simpa using hle, fun hlt => absurd hlt (Nat.not_lt_zero _)⟩
      · exact (hasSlots_getSymbol hlaw hratio hpaced (sound_of_run hlaw hrun) hcall).mpr
          (ih (.snoc hrun (.getSymbol symbol hdata hcall)) hrest)

/-- While nothing is acknowledged, the slots that are left are those never taken. -/
theorem hasSlots_of_unacked {n : Nat} (h : (e.window view).Holds n 0) (m : Nat) :
    e.HasSlots ratio view m ↔ n + m ≤ siameseMaxPackets := by
  obtain ⟨htaken, hfreed⟩ := h.slots
  have hle := h.count_le
  unfold HasSlots
  rw [htaken, hfreed]
  omega

/-- A chunk in front that the codec refuses. -/
theorem getSymbol_of_refused {chunk : Bytes} {rest : List Bytes}
    (hfec : e.isNextSymbolFec ratio = false) (hpending : e.pending = chunk :: rest)
    (hrefused : (S.encoderAdd e.encoder.encoder chunk).1 ≠ .success) :
    getSymbol ratio e = .error chunkRefused { e with
      pending := rest
      encoder := { e.encoder with encoder := (S.encoderAdd e.encoder.encoder chunk).2.2 } } := by
  have hlift : (Method.lift (enforce (!e.pending.isEmpty) "!m_pending.empty()") :
      Method Fault (ContinuousStreamEncoder S) Unit) e = .ok () e := by
    rw [hpending]
    rfl
  have hpop : onPending popFront e = .ok chunk { e with pending := rest } :=
    Method.zoom_of_ok (popFront_ok_iff.mpr hpending)
  have hadd : onEncoder (StreamFecEncoder.addChunk chunk) { e with pending := rest } =
      .error _ _ := Method.zoom_of_error (StreamFecEncoder.addChunk_of_refused hrefused)
  rw [getSymbol, Method.bind_of_ok (Method.get_apply e), if_neg (by simp [hfec]),
    Method.bind_of_ok hlift, Method.bind_of_ok hpop, Method.bind_of_error hadd]
  rfl

/-- A chunk that is refused was in front, and the codec is as it was. -/
theorem getSymbol_refused (h : getSymbol ratio e = .error chunkRefused e') :
    e.isNextSymbolFec ratio = false ∧ ∃ chunk rest, e.pending = chunk :: rest ∧
      (S.encoderAdd e.encoder.encoder chunk).1 ≠ .success ∧
      e'.encoder.encoder = (S.encoderAdd e.encoder.encoder chunk).2.2 := by
  cases hfec : e.isNextSymbolFec ratio with
  | true =>
      exfalso
      rw [getSymbol, Method.bind_of_ok (Method.get_apply e), hfec, if_pos rfl,
        Method.bind_of_ok (Method.modify_apply _ e)] at h
      unfold generateFecSymbol onEncoder at h
      obtain ⟨x, hfault, -⟩ := Method.zoom_error h
      by_cases hsuccess : (S.encode e.encoder.encoder).1 = .success
      · have hok := StreamFecEncoder.generateFecSymbol_ok_iff.mpr
          ⟨hsuccess, rfl, rfl⟩
        rw [hok] at hfault
        cases hfault
      · rw [StreamFecEncoder.generateFecSymbol_of_refused hsuccess] at hfault
        simp [chunkRefused] at hfault
  | false =>
      refine ⟨rfl, ?_⟩
      cases hpending : e.pending with
      | nil =>
          rw [getSymbol, Method.bind_of_ok (Method.get_apply e), if_neg (by simp [hfec]),
            hpending] at h
          have hempty : (EStateM.Result.error (.enforce "!m_pending.empty()") e :
              EStateM.Result Fault (ContinuousStreamEncoder S) Symbol) = .error chunkRefused e' := h
          simp [chunkRefused] at hempty
      | cons chunk rest =>
          by_cases hsuccess : (S.encoderAdd e.encoder.encoder chunk).1 = .success
          · have hok : getSymbol ratio e = .ok (chunk, (S.encoderAdd e.encoder.encoder chunk).2.1) _ :=
              getSymbol_ok_iff.mpr (Or.inr ⟨hfec, rest, _, hpending,
                StreamFecEncoder.addChunk_ok_iff.mpr ⟨hsuccess, rfl, rfl⟩, rfl⟩)
            rw [hok] at h
            cases h
          · rw [getSymbol_of_refused hfec hpending hsuccess] at h
            cases h
            exact ⟨chunk, rest, rfl, hsuccess, rfl⟩

/-- With a slot for the chunk in front, the window is not full when it is refused. -/
theorem not_full_of_refused (hlaw : S.Windowed view) (hratio : Regular ratio)
    (hpaced : e.Paced ratio) (hslots : e.HasSlots ratio view e.pending.length)
    (h : getSymbol ratio e = .error chunkRefused e') :
    (e'.window view).count < siameseMaxPackets := by
  obtain ⟨hfec, chunk, rest, hpending, hrefused, hsame⟩ := getSymbol_refused h
  have hpos : e.untilRecovery ratio ≠ 0 := by
    rw [ne_eq, hpaced.untilRecovery_eq_zero_iff hratio, hfec]
    exact Bool.false_ne_true
  have htaken := hslots.1
  rw [hpending, List.length_cons] at htaken
  have hle := (e.window view).count_le_slotsTaken
  have hwindow : e'.window view = e.window view := by
    unfold window
    rw [hsame, hlaw.of_add_refused hrefused]
  rw [hwindow]
  omega

/-- A drain that runs out of rounds was not refused a chunk. -/
theorem drainSymbols_zero_ne_refused : drainSymbols ratio 0 e ≠ .error chunkRefused e' := by
  intro h
  have hdiverges : (EStateM.Result.error .diverges e :
      EStateM.Result Fault (ContinuousStreamEncoder S) (List Symbol)) =
        .error chunkRefused e' := h
  simp [chunkRefused] at hdiverges

/-- With slots for the chunks, the window is never full when one of them is refused. -/
theorem not_full_of_hasSlots (hlaw : S.Windowed view) (hratio : Regular ratio) :
    ∀ (rounds : Nat) {e e' : ContinuousStreamEncoder S} {events : List Event},
      Run (Step ratio) {} events e → e.HasSlots ratio view e.pending.length →
      drainSymbols ratio rounds e = .error chunkRefused e' →
      (e'.window view).count < siameseMaxPackets := by
  intro rounds
  induction rounds with
  | zero => intro e e' events _ _ h; exact absurd h drainSymbols_zero_ne_refused
  | succ rounds ih =>
      intro e e' events hrun hslots h
      have hpaced := paced_of_run hratio hrun
      obtain ⟨hdata, hthrow | ⟨symbol, e₁, hcall, hrest⟩⟩ := drainSymbols_error_iff.mp h
      · exact not_full_of_refused hlaw hratio hpaced hslots hthrow
      · exact ih (.snoc hrun (.getSymbol symbol hdata hcall))
          ((hasSlots_getSymbol hlaw hratio hpaced (sound_of_run hlaw hrun) hcall).mp hslots) hrest

/-- A drain that is refused a chunk acknowledges nothing either. -/
theorem holds_of_drain_refused (hlaw : S.Windowed view) {a : Nat} :
    ∀ (rounds : Nat) {e e' : ContinuousStreamEncoder S},
      (view e.encoder.encoder).Holds e.encoder.added.length a →
      drainSymbols ratio rounds e = .error chunkRefused e' →
      ∃ n, (view e'.encoder.encoder).Holds n a := by
  intro rounds
  induction rounds with
  | zero => intro e e' _ h; exact absurd h drainSymbols_zero_ne_refused
  | succ rounds ih =>
      intro e e' hholds h
      obtain ⟨-, hthrow | ⟨symbol, e₁, hcall, hrest⟩⟩ := drainSymbols_error_iff.mp h
      · obtain ⟨-, chunk, rest, -, hrefused, hsame⟩ := getSymbol_refused hthrow
        refine ⟨e.encoder.added.length, ?_⟩
        rw [hsame, hlaw.of_add_refused hrefused]
        exact hholds
      · exact ih (holds_getSymbol hlaw hholds hcall) hrest

/-- A recovery symbol that is due and covers something can be got, and the newest packet
stays in the window. -/
theorem getSymbol_of_due (hlaw : S.Windowed view) (hsound : (e.window view).Sound)
    (hfec : e.isNextSymbolFec ratio = true) (hcount : (e.window view).count ≠ 0) :
    ∃ symbol e₁, getSymbol ratio e = .ok symbol e₁ ∧ (e₁.window view).count ≠ 0 ∧
      e₁.pending = e.pending := by
  have hsuccess := hlaw.encode_success_iff.mpr hcount
  refine ⟨_, _, getSymbol_ok_iff.mpr (Or.inl ⟨hfec, _,
    StreamFecEncoder.generateFecSymbol_ok_iff.mpr ⟨hsuccess, rfl, rfl⟩, rfl⟩), ?_, rfl⟩
  show (view (S.encode e.encoder.encoder).2.2).window.count ≠ 0
  rw [hlaw.of_encode hsuccess]
  show (view e.encoder.encoder).window.encode.2.count ≠ 0
  have hfreed := (e.window view).slotsFreed_le
  have hlt := hsound.first_lt hcount
  rw [EncoderPacketWindow.count_encode hcount]
  omega

/-- A chunk in front that the codec takes, which is in the window from then on. -/
theorem getSymbol_of_taken (hlaw : S.Windowed view) {chunk : Bytes} {rest : List Bytes}
    (hfec : e.isNextSymbolFec ratio = false) (hpending : e.pending = chunk :: rest)
    (hsuccess : (S.encoderAdd e.encoder.encoder chunk).1 = .success) :
    ∃ symbol e₁, getSymbol ratio e = .ok symbol e₁ ∧ (e₁.window view).count ≠ 0 ∧
      e₁.pending = rest := by
  have hcall : getSymbol ratio e = .ok (chunk, (S.encoderAdd e.encoder.encoder chunk).2.1) _ :=
    getSymbol_ok_iff.mpr (Or.inr ⟨hfec, rest, _, hpending,
      StreamFecEncoder.addChunk_ok_iff.mpr ⟨hsuccess, rfl, rfl⟩, rfl⟩)
  refine ⟨_, _, hcall, ?_, congrArg List.tail hpending⟩
  show (view (S.encoderAdd e.encoder.encoder chunk).2.2).window.count ≠ 0
  rw [(hlaw.of_add hsuccess).2, EncoderPacketWindow.count_add]
  split <;> omega

/-- An acceptable chunk in front that the codec refuses found the window full. -/
theorem full_of_refused (hlaw : S.Windowed view) (hsound : (e.window view).Sound) {chunk : Bytes}
    (hacceptable : SiameseEncoder.Acceptable chunk)
    (hrefused : (S.encoderAdd e.encoder.encoder chunk).1 ≠ .success) :
    (view (S.encoderAdd e.encoder.encoder chunk).2.2).window.count = siameseMaxPackets := by
  rw [hlaw.of_add_refused hrefused]
  have hroom : ¬(e.window view).count < siameseMaxPackets :=
    fun hroom => hrefused (hlaw.add_success_iff.mpr ⟨hacceptable, hroom⟩)
  exact le_antisymm hsound.count_le (not_lt.mp hroom)

/-- With symbols left, one more can be got, or the chunk in front finds the window full. -/
theorem getSymbol_or_full (hlaw : S.Windowed view) (hsound : (e.window view).Sound)
    (hdata : e.hasData ratio = true)
    (hcovers : e.isNextSymbolFec ratio = true → (e.window view).count ≠ 0)
    (hacceptable : ∀ chunk ∈ e.pending, SiameseEncoder.Acceptable chunk) :
    (∃ symbol e₁, getSymbol ratio e = .ok symbol e₁ ∧ (e₁.window view).count ≠ 0 ∧
        ∀ chunk ∈ e₁.pending, SiameseEncoder.Acceptable chunk) ∨
      ∃ e', getSymbol ratio e = .error chunkRefused e' ∧
        (e'.window view).count = siameseMaxPackets := by
  cases hfec : e.isNextSymbolFec ratio with
  | true =>
      obtain ⟨symbol, e₁, hcall, hcount, hpending⟩ :=
        getSymbol_of_due hlaw hsound hfec (hcovers hfec)
      exact Or.inl ⟨symbol, e₁, hcall, hcount, by rwa [hpending]⟩
  | false =>
      cases hpending : e.pending with
      | nil => simp [hasData, hfec, hpending] at hdata
      | cons chunk rest =>
          rw [hpending, List.forall_mem_cons] at hacceptable
          by_cases hsuccess : (S.encoderAdd e.encoder.encoder chunk).1 = .success
          · obtain ⟨symbol, e₁, hcall, hcount, hrest⟩ :=
              getSymbol_of_taken hlaw hfec hpending hsuccess
            exact Or.inl ⟨symbol, e₁, hcall, hcount, by rw [hrest]; exact hacceptable.2⟩
          · exact Or.inr ⟨_, getSymbol_of_refused hfec hpending hsuccess,
              full_of_refused hlaw hsound hacceptable.1 hsuccess⟩

/-- A drain of acceptable chunks returns, or finds the window full: recovery symbols can be
got, as long as the first that is due covers something. -/
theorem drainSymbols_outcome (hlaw : S.Windowed view) (hratio : Regular ratio) :
    ∀ (rounds : Nat) {e : ContinuousStreamEncoder S} {events : List Event},
      Run (Step ratio) {} events e → e.remaining ratio < rounds →
      (e.isNextSymbolFec ratio = true → (e.window view).count ≠ 0) →
      (∀ chunk ∈ e.pending, SiameseEncoder.Acceptable chunk) →
      (∃ symbols e', drainSymbols ratio rounds e = .ok symbols e') ∨
        ∃ e', drainSymbols ratio rounds e = .error chunkRefused e' ∧
          (e'.window view).count = siameseMaxPackets := by
  intro rounds
  induction rounds with
  | zero => intro e events _ hrounds; exact absurd hrounds (Nat.not_lt_zero _)
  | succ rounds ih =>
      intro e events hrun hrounds hcovers hacceptable
      have hpaced := paced_of_run hratio hrun
      cases hdata : e.hasData ratio with
      | false => exact Or.inl ⟨[], e, drainSymbols_ok_iff.mpr (Or.inl ⟨hdata, rfl, rfl⟩)⟩
      | true =>
          rcases getSymbol_or_full hlaw (sound_of_run hlaw hrun) hdata hcovers hacceptable with
            ⟨symbol, e₁, hcall, hcount, hleft⟩ | ⟨e', hthrow, hfull⟩
          · have hless := hpaced.remaining_getSymbol hratio hcall
            rcases ih (.snoc hrun (.getSymbol symbol hdata hcall)) (by omega) (fun _ => hcount)
              hleft with ⟨rest, e', hrest⟩ | ⟨e', hrest, hfull⟩
            · exact Or.inl ⟨symbol :: rest, e', drainSymbols_ok_iff.mpr
                (Or.inr ⟨hdata, symbol, e₁, rest, hcall, hrest, rfl⟩)⟩
            · exact Or.inr ⟨e', drainSymbols_error_iff.mpr
                ⟨hdata, Or.inr ⟨symbol, e₁, hcall, hrest⟩⟩, hfull⟩
          · exact Or.inr ⟨e', drainSymbols_error_iff.mpr ⟨hdata, Or.inl hthrow⟩, hfull⟩

/-- A drain of acceptable chunks with slots returns. -/
theorem drainSymbols_returns (hlaw : S.Windowed view) (hratio : Regular ratio) {rounds : Nat}
    {events : List Event} (hrun : Run (Step ratio) {} events e) (hrounds : e.remaining ratio < rounds)
    (hcovers : e.isNextSymbolFec ratio = true → (e.window view).count ≠ 0)
    (hacceptable : ∀ chunk ∈ e.pending, SiameseEncoder.Acceptable chunk)
    (hslots : e.HasSlots ratio view e.pending.length) :
    ∃ symbols e', drainSymbols ratio rounds e = .ok symbols e' := by
  rcases drainSymbols_outcome hlaw hratio rounds hrun hrounds hcovers hacceptable with
    hreturns | ⟨e', hthrows, hfull⟩
  · exact hreturns
  · exact absurd hfull (ne_of_lt (not_full_of_hasSlots hlaw hratio rounds hrun hslots hthrows))

/-- A drain acknowledges nothing, and adds the chunks that were pending. -/
theorem holds_drainSymbols (hlaw : S.Windowed view) {a : Nat}
    (h : (view e.encoder.encoder).Holds e.encoder.added.length a) {rounds : Nat}
    {symbols : List Symbol} (hcall : drainSymbols ratio rounds e = .ok symbols e') :
    (view e'.encoder.encoder).Holds e'.encoder.added.length a ∧
      e'.encoder.added = e.encoder.added ++ e.pending ∧ e'.pending = [] := by
  obtain ⟨hrun, hdata⟩ := run_of_drainSymbols _ hcall
  have hkept := Run.invariant_of_events
    (I := fun t => (view t.encoder.encoder).Holds t.encoder.added.length a ∧
      t.encoder.added ++ t.pending = e.encoder.added ++ e.pending)
    (C := fun x => ∃ symbol, x = Event.getSymbol symbol)
    (fun t x t' ht hx hstep => by
      obtain ⟨symbol, rfl⟩ := hx
      have hinput := hstep.input
      cases hstep with
      | getSymbol _ _ hget =>
          refine ⟨holds_getSymbol hlaw ht.1 hget, ?_⟩
          rw [hinput, ht.2]
          exact List.append_nil _)
    hrun (fun x hx => by
      obtain ⟨symbol, -, rfl⟩ := List.mem_map.mp hx
      exact ⟨symbol, rfl⟩) ⟨h, rfl⟩
  have hpending : e'.pending = [] := by
    unfold hasData at hdata
    simpa using (Bool.or_eq_false_iff.mp hdata).1
  refine ⟨hkept.1, ?_, hpending⟩
  rw [← hkept.2, hpending, List.append_nil]

end ContinuousStreamEncoder

/-! ## The handler of a stream packet -/

namespace Node

variable {W : Wirehair} {S : Siamese} {ε : Type} [LinearOrder ε]
  {view : S.Encoder → SiameseEncoder} {n n' : Node W S ε}

/-- Passing chunks on queues them to the encoder, and does nothing else to it. -/
theorem relayChunks_encoder {s s' : ContinuousStream S}
    (h : ContinuousStream.relayChunks s = .ok () s') :
    s'.encoder = { s.encoder with pending := s'.encoder.pending } ∧
      ∃ calls, Run (ContinuousStreamEncoder.Step fecRatio) s.encoder calls s'.encoder := by
  obtain ⟨s₁, hrelay, hs₁, -⟩ := ContinuousStream.relayChunks_spec (s := s)
    (I := fun t => t.encoder = { s.encoder with pending := t.encoder.pending } ∧
      ∃ calls, Run (ContinuousStreamEncoder.Step fecRatio) s.encoder calls t.encoder)
    (fun t symbol ht _ _ => by
      obtain ⟨hsame, calls, hcalls⟩ := ht
      refine ⟨?_, _, .snoc hcalls (.queueChunk symbol.1 rfl)⟩
      show { t.encoder with pending := t.encoder.pending ++ [symbol.1] } = _
      rw [hsame]
      rfl)
    ⟨rfl, [], .nil _⟩
  rw [h] at hrelay
  cases hrelay
  exact hs₁

/-- The encoder of a channel is only used through its calls. -/
theorem session_of_run {events : List (Event ε)} (hrun : Run Step ({} : Node W S ε) events n)
    (c : UInt32) : ∃ calls, Run (ContinuousStreamEncoder.Step fecRatio) {} calls
      (n.stream c).encoder := by
  induction hrun with
  | nil => exact ⟨[], .nil _⟩
  | @snoc n₁ n₂ events x _ hstep ih =>
      obtain ⟨calls, hcalls⟩ := ih
      rcases step_stream c hstep with hleaves | ⟨around, data, peer, hd, payload, d₁, d₂, s₁,
        symbols, e₁, acks, -, -, rfl, hhandled⟩ | ⟨message, x, hack, hstream, -⟩
      · rw [hleaves.stream_eq]
        exact ⟨calls, hcalls⟩
      · -- chunks are queued, then the loop gets symbols
        obtain ⟨-, more, hmore⟩ := relayChunks_encoder hhandled.relayed
        obtain ⟨hdrain, -⟩ := ContinuousStreamEncoder.run_of_drainSymbols _ hhandled.drained
        obtain ⟨-, -, hstreams, -⟩ := hhandled.effect
        rw [stream_of_update_self hstreams]
        exact ⟨_, (hcalls.append hmore).append hdrain⟩
      · rw [hstream]
        exact ⟨_, .snoc hcalls (.processAck message hack)⟩

/-- What the stream of a channel does with a symbol before its encoder is asked. -/
def relaying (rounds : Nat) (payload : Bytes) (index : Nat) :
    Method Fault (ContinuousStream S) Bytes := do
  ContinuousStream.onDecoder (ContinuousStreamDecoder.processSymbol rounds payload index)
  let ack ← ContinuousStream.onDecoder ContinuousStreamDecoder.generateAck
  ContinuousStream.relayChunks
  pure ack

theorem relaying_ok_iff {rounds : Nat} {payload : Bytes} {index : Nat}
    {s s' : ContinuousStream S} {ack : Bytes} : relaying rounds payload index s = .ok ack s' ↔
      ∃ d₁ d₂, ContinuousStreamDecoder.processSymbol rounds payload index s.decoder = .ok () d₁ ∧
        ContinuousStreamDecoder.generateAck d₁ = .ok ack d₂ ∧
        ContinuousStream.relayChunks { s with decoder := d₂ } = .ok () s' := by
  unfold relaying
  constructor
  · intro h
    obtain ⟨⟨⟩, s₁, hprocess, h⟩ := Method.bind_ok_iff.mp h
    obtain ⟨d₁, hd₁, rfl⟩ := Method.zoom_ok_iff.mp hprocess
    obtain ⟨ack', s₂, hack, h⟩ := Method.bind_ok_iff.mp h
    obtain ⟨d₂, hd₂, rfl⟩ := Method.zoom_ok_iff.mp hack
    obtain ⟨⟨⟩, s₃, hrelay, h⟩ := Method.bind_ok_iff.mp h
    obtain ⟨rfl, rfl⟩ := Method.pure_ok_iff.mp h
    exact ⟨d₁, d₂, hd₁, hd₂, hrelay⟩
  · rintro ⟨d₁, d₂, hd₁, hd₂, hrelay⟩
    have hprocess : ContinuousStream.onDecoder
        (ContinuousStreamDecoder.processSymbol rounds payload index) s =
          .ok () { s with decoder := d₁ } := Method.zoom_of_ok hd₁
    have hack : ContinuousStream.onDecoder ContinuousStreamDecoder.generateAck
        { s with decoder := d₁ } = .ok ack { s with decoder := d₂ } := Method.zoom_of_ok hd₂
    rw [Method.bind_of_ok hprocess, Method.bind_of_ok hack, Method.bind_of_ok hrelay]
    rfl

/-- What the handler of a stream packet does behind that. -/
def drainOn (around : Surroundings ε) (channelId : UInt32) : Method Fault (Node W S ε) Unit := do
  let symbols ← onStream channelId
    (ContinuousStream.onEncoder (ContinuousStreamEncoder.drainSymbols fecRatio around.rounds))
  if !(streamPackets channelId symbols).isEmpty then
    queueToAll around channelId (streamPackets channelId symbols)

/-- A packet that is not lost is relayed, and then the encoder is drained. -/
theorem handleStream_of_relaying {around : Surroundings ε} {data : Bytes} (peer : ε)
    (hsize : sizeOfHeader StreamPacketHeader ≤ data.length) (hbounded : n.packetSeq ≠ intMax)
    (hsurvives : n.packetSeq % loseEvery ≠ 0) {ack : Bytes} {s : ContinuousStream S}
    (hrelaying : relaying around.rounds (data.drop (sizeOfHeader StreamPacketHeader))
      (word data 3).toNat (n.stream (word data 2)) = .ok ack s) :
    ∃ acks, handleStream around data peer n = drainOn around (word data 2)
      ({ n.counted with sentAcks := acks }.withStream (word data 2) s) := by
  obtain ⟨d₁, d₂, hprocess, hack, hrelay⟩ := relaying_ok_iff.mp hrelaying
  have hheader := Packet.header_ok_iff.mpr
    ⟨hsize, (rfl : (PacketLayout.view data : StreamPacketHeader) = _)⟩
  have hpayload := Packet.payload_ok_iff.mpr ⟨hsize,
    (rfl : data.drop (sizeOfHeader StreamPacketHeader) = _)⟩
  have hlost := nextIsLost_ok_iff.mpr ⟨hbounded, (decide_eq_false hsurvives).symm, rfl⟩
  have hfirst : onStream (word data 2) (ContinuousStream.onDecoder
      (ContinuousStreamDecoder.processSymbol around.rounds
        (data.drop (sizeOfHeader StreamPacketHeader)) (word data 3).toNat)) n.counted =
      .ok () (n.counted.withStream (word data 2)
        { n.stream (word data 2) with decoder := d₁ }) :=
    Method.zoom_of_ok (Method.zoom_of_ok hprocess)
  have hsecond : ∀ n₁ : Node W S ε, n₁.stream (word data 2) =
      { n.stream (word data 2) with decoder := d₁ } →
      onStream (word data 2) (ContinuousStream.onDecoder ContinuousStreamDecoder.generateAck) n₁ =
        .ok ack (n₁.withStream (word data 2) { n.stream (word data 2) with decoder := d₂ }) := by
    intro n₁ hn₁
    have hzoom : ContinuousStream.onDecoder ContinuousStreamDecoder.generateAck
        (n₁.stream (word data 2)) = .ok ack { n.stream (word data 2) with decoder := d₂ } := by
      rw [hn₁]
      exact Method.zoom_of_ok hack
    exact Method.zoom_of_ok hzoom
  have hthird : ∀ n₁ : Node W S ε, n₁.stream (word data 2) =
      { n.stream (word data 2) with decoder := d₂ } →
      relayOn around (word data 2) n₁ =
        drainOn around (word data 2) (n₁.withStream (word data 2) s) := by
    intro n₁ hn₁
    have hzoom : onStream (word data 2) ContinuousStream.relayChunks n₁ =
        .ok () (n₁.withStream (word data 2) s) := Method.zoom_of_ok (by rw [hn₁]; exact hrelay)
    exact Method.bind_of_ok hzoom
  have hchannel : (PacketLayout.view data : StreamPacketHeader).channelId = word data 2 := rfl
  have hindex : (PacketLayout.view data : StreamPacketHeader).packetIndex = word data 3 := rfl
  rw [handleStream_eq, hheader, Method.bind_of_ok (Method.lift_ok _ n), Method.bind_of_ok hlost,
    if_neg Bool.false_ne_true, hpayload, Method.bind_of_ok (Method.lift_ok _ n.counted),
    hchannel, hindex, Method.bind_of_ok hfirst, Method.bind_of_ok (hsecond _ (stream_of_update_self rfl)),
    withStream_withStream]
  cases hempty : ack.isEmpty with
  | true =>
      refine ⟨n.sentAcks, ?_⟩
      have := hthird (n.counted.withStream (word data 2)
        { n.stream (word data 2) with decoder := d₂ }) (stream_of_update_self rfl)
      rw [withStream_withStream] at this
      exact this
  | false =>
      refine ⟨n.sentAcks ++ [(peer, Packet.makeStreamAck ack (word data 2))], ?_⟩
      have := hthird ({ n.counted with
        sentAcks := n.sentAcks ++ [(peer, Packet.makeStreamAck ack (word data 2))] }.withStream
          (word data 2) { n.stream (word data 2) with decoder := d₂ }) (stream_of_update_self rfl)
      rw [withStream_withStream] at this
      exact this

/-- What was got is queued to all. -/
theorem drainOn_of_drained {around : Surroundings ε} {channelId : UInt32}
    {symbols : List Symbol} {e' : ContinuousStreamEncoder S}
    (h : ContinuousStreamEncoder.drainSymbols fecRatio around.rounds (n.stream channelId).encoder =
      .ok symbols e') :
    drainOn around channelId n = (do
      if !(streamPackets channelId symbols).isEmpty then
        queueToAll around channelId (streamPackets channelId symbols) :
      Method Fault (Node W S ε) Unit)
        (n.withStream channelId { n.stream channelId with encoder := e' }) := by
  have hdrain : onStream channelId (ContinuousStream.onEncoder
      (ContinuousStreamEncoder.drainSymbols fecRatio around.rounds)) n =
        .ok symbols (n.withStream channelId { n.stream channelId with encoder := e' }) :=
    Method.zoom_of_ok (Method.zoom_of_ok h)
  exact Method.bind_of_ok hdrain

/-- Where a chunk was refused, it was the drain that threw. -/
theorem drainOn_refused {around : Surroundings ε} {channelId : UInt32} {n n' : Node W S ε}
    (h : drainOn around channelId n = .error chunkRefused n') :
    ∃ e', ContinuousStreamEncoder.drainSymbols fecRatio around.rounds (n.stream channelId).encoder =
      .error chunkRefused e' ∧
      n' = n.withStream channelId { n.stream channelId with encoder := e' } := by
  rcases Method.bind_error_iff.mp h with hdrain | ⟨symbols, n₁, -, hqueue⟩
  · obtain ⟨s, hs, rfl⟩ := Method.zoom_error hdrain
    obtain ⟨e', he', rfl⟩ := Method.zoom_error hs
    exact ⟨e', he', rfl⟩
  · -- the receivers throw something else
    exfalso
    have hqueues : Method.NeverThrows chunkRefused (do
        if !(streamPackets channelId symbols).isEmpty then
          queueToAll around channelId (streamPackets channelId symbols) :
        Method Fault (Node W S ε) Unit) n₁ :=
      Method.Avoids.ite (queueToAll_avoids isLocal_chunkRefused around channelId _) (.pure ()) n₁
    unfold Method.NeverThrows at hqueues
    rw [hqueue] at hqueues
    exact hqueues rfl

/-- A handler that was refused a chunk relayed the packet, and drained the encoder. -/
theorem handleStream_refused {around : Surroundings ε} {data : Bytes} {peer : ε}
    (h : handleStream around data peer n = .error chunkRefused n') :
    n.packetSeq % loseEvery ≠ 0 ∧ ∃ ack s e',
      relaying around.rounds (data.drop (sizeOfHeader StreamPacketHeader)) (word data 3).toNat
        (n.stream (word data 2)) = .ok ack s ∧
      ContinuousStreamEncoder.drainSymbols fecRatio around.rounds s.encoder =
        .error chunkRefused e' ∧
      n'.stream (word data 2) = { s with encoder := e' } := by
  have hcall := h
  rw [handleStream_eq] at h
  obtain ⟨hd, n₀, hfirst, h⟩ := Method.NeverThrows.bind_error
    (Method.Avoids.lift (Packet.header_avoids isLocal_chunkRefused _ data) n) h
  obtain ⟨hheader, rfl⟩ := Method.lift_ok_iff.mp hfirst
  obtain ⟨hsize, rfl⟩ := Packet.header_ok_iff.mp hheader
  obtain ⟨lost, n₁, hlost, h⟩ := Method.NeverThrows.bind_error
    (nextIsLost_avoids isLocal_chunkRefused _) h
  obtain ⟨hmax, rfl, rfl⟩ := nextIsLost_ok_iff.mp hlost
  by_cases hlose : n.packetSeq % loseEvery = 0
  · rw [decide_eq_true hlose, if_pos rfl] at h
    cases h
  · rw [decide_eq_false hlose, if_neg Bool.false_ne_true] at h
    obtain ⟨payload, n₂, hrest, h⟩ := Method.NeverThrows.bind_error
      (Method.Avoids.lift (Packet.payload_avoids hheader) _) h
    obtain ⟨hpayload, rfl⟩ := Method.lift_ok_iff.mp hrest
    obtain ⟨-, rfl⟩ := Packet.payload_ok_iff.mp hpayload
    obtain ⟨_, n₃, hsymbol, h⟩ := Method.NeverThrows.bind_error
      (Method.Avoids.zoom (Method.Avoids.zoom
        (ContinuousStreamDecoder.processSymbol_avoids isLocal_chunkRefused _ _ _)) _) h
    obtain ⟨_, hsymbol', rfl⟩ := onStream_ok hsymbol
    obtain ⟨d₁, hprocessed, rfl⟩ := Method.zoom_ok_iff.mp hsymbol'
    obtain ⟨ack, n₄, hack, -⟩ := Method.NeverThrows.bind_error
      (Method.Avoids.zoom (Method.Avoids.zoom (Method.Avoids.zoom
        (StreamFecDecoder.generateAck_avoids isLocal_chunkRefused))) _) h
    obtain ⟨_, hack', rfl⟩ := onStream_ok hack
    rw [withStream_stream_self] at hack'
    obtain ⟨d₂, hacked, rfl⟩ := Method.zoom_ok_iff.mp hack'
    obtain ⟨s, hrelay, -⟩ := ContinuousStream.relayChunks_spec (I := fun _ => True)
      (fun _ _ _ _ _ => trivial) (s := { n.stream (word data 2) with decoder := d₂ }) trivial
    have hrelaying : relaying around.rounds (data.drop (sizeOfHeader StreamPacketHeader))
        (word data 3).toNat (n.stream (word data 2)) = .ok ack s :=
      relaying_ok_iff.mpr ⟨d₁, d₂, hprocessed, hacked, hrelay⟩
    obtain ⟨acks, heq⟩ := handleStream_of_relaying peer hsize hmax hlose hrelaying
    rw [heq] at hcall
    obtain ⟨e', hdrain, rfl⟩ := drainOn_refused hcall
    rw [withStream_stream_self] at hdrain
    refine ⟨hlose, ack, s, e', hrelaying, hdrain, ?_⟩
    rw [withStream_stream_self, withStream_stream_self]

end Node

end FecRelay
