import FecRelay.Codec.Windowing
import FecRelay.Session

/-!
# `has_data` as a guard for `get_symbol`

`has_data` looks at the pending chunks and the segment counters, and `get_symbol` also
needs the codec's window: a recovery symbol covers something only while there is something
in the window, and a chunk needs a slot in it. Acks empty the window at any time, so that
a recovery symbol can be due that covers nothing.
-/

namespace FecRelay.ContinuousStreamEncoder

open FecRelay.Base

variable {S : Siamese} {view : S.Encoder → SiameseEncoder} {ratio : Rat}
  {e e' : ContinuousStreamEncoder S} {events : List Event}

/-- A run in which every ack is for chunks that were sent, and none is so old that its
number came around again. The latest of them says that the first `acked` chunks arrived. -/
inductive AckedRun (ratio : Rat) : List Event → Nat → ContinuousStreamEncoder S → Prop
  | init : AckedRun ratio [] 0 {}
  | step {events : List Event} {acked : Nat} {e e' : ContinuousStreamEncoder S} {x : Event} :
      AckedRun ratio events acked e → x.message? = none → Step ratio e x e' →
      AckedRun ratio (events ++ [x]) acked e'
  | ack {events : List Event} {acked : Nat} {e e' : ContinuousStreamEncoder S} {message : Bytes}
      (expects : Nat) : AckedRun ratio events acked e → IsAck message expects →
      expects ≤ e.encoder.added.length → acked < expects + siamesePacketNumCount / 2 →
      Step ratio e (.processAck message) e' →
      AckedRun ratio (events ++ [.processAck message]) (max acked expects) e'

theorem AckedRun.run {acked : Nat} (h : AckedRun ratio events acked e) :
    Run (Step ratio) {} events e := by
  induction h with
  | init => exact .nil _
  | step _ _ hstep ih => exact .snoc ih hstep
  | ack _ _ _ _ _ hstep ih => exact .snoc ih hstep

theorem AckedRun.holds (hlaw : S.Windowed view) {acked : Nat} (h : AckedRun ratio events acked e) :
    (view e.encoder.encoder).Holds e.encoder.added.length acked := by
  induction h with
  | init =>
      show (view S.encoderCreate).Holds 0 0
      rw [hlaw.create]
      exact SiameseEncoder.holds_init
  | step _ hmessage hstep ih =>
      cases hstep with
      | queueChunk chunk hcall =>
          cases hcall
          exact ih
      | getSymbol symbol _ hcall => exact holds_getSymbol hlaw ih hcall
      | processAck message _ => cases hmessage
  | ack expects _ hack hsent hrecent hstep ih =>
      cases hstep with
      | processAck message hcall => exact (holds_processAck hlaw ih hack hsent hrecent hcall).1

/-! ## A recovery symbol that covers nothing -/

/-- Three chunks are queued. -/
theorem ackedRun_queued : AckedRun fecRatio
    [.queueChunk [7], .queueChunk [7], .queueChunk [7]] 0
    ({ pending := [[7], [7], [7]] } : ContinuousStreamEncoder windowing) :=
  .step (.step (.step .init rfl (.queueChunk [7] rfl)) rfl (.queueChunk [7] rfl)) rfl
    (.queueChunk [7] rfl)

/-- The first `k` of them are sent before any recovery symbol is due. -/
theorem ackedRun_sent : ∀ k ≤ 3, ∃ events, ∃ e : ContinuousStreamEncoder windowing,
    AckedRun fecRatio events 0 e ∧ e.encoder.added.length = k ∧ e.encoder.emitted = [] ∧
      e.pending = List.replicate (3 - k) [7] := by
  intro k
  induction k with
  | zero => exact fun _ => ⟨_, _, ackedRun_queued, rfl, rfl, rfl⟩
  | succ k ih =>
      intro hk
      obtain ⟨events, e, hrun, hadded, hemitted, hpending⟩ := ih (by omega)
      have hpaced := paced_of_run regular_fecRatio hrun.run
      have hholds := hrun.holds Windowing.windowed
      have hnext : e.isNextSymbolFec fecRatio = false := by
        rw [Bool.eq_false_iff, ne_eq, hpaced.isNextSymbolFec_iff regular_fecRatio, hadded, hemitted]
        simp [Pacing.quota]
        omega
      have hsucc : 3 - k = 3 - (k + 1) + 1 := by omega
      rw [hsucc, List.replicate_succ] at hpending
      have hdata : e.hasData fecRatio = true := by simp [hasData, hpending]
      have hsend : e.CanSend fecRatio id := by
        refine ⟨by simp [hnext], fun _ chunk hchunk => ?_⟩
        obtain rfl : [7] = chunk := by simpa [hpending] using hchunk
        refine ⟨by simp [SiameseEncoder.Acceptable, u32, siameseMaxPacketBytes], ?_⟩
        by_cases hempty : e.encoder.encoder.window.count = 0
        · show e.encoder.encoder.window.count < siameseMaxPackets
          simp [hempty, siameseMaxPackets]
        · obtain ⟨base, hn, -⟩ := hholds.window.elements hempty
          have hn : base + e.encoder.encoder.window.count = e.encoder.added.length := hn
          show e.encoder.encoder.window.count < siameseMaxPackets
          unfold siameseMaxPackets
          omega
      obtain ⟨symbol, e', hcall⟩ := (getSymbol_returns_iff Windowing.windowed hdata).mpr hsend
      have hrun' := hrun.step rfl (.getSymbol symbol hdata hcall)
      obtain ⟨-, ⟨hmarks, -⟩ | ⟨-, hcons, hadded', hemitted'⟩⟩ :=
        hpaced.getSymbol_cases regular_fecRatio hcall
      · exact absurd ((hpaced.isNextSymbolFec_iff regular_fecRatio).mpr hmarks) (by simp [hnext])
      · refine ⟨_, e', hrun', by simp [hadded', hadded], hemitted'.trans hemitted, ?_⟩
        rw [hpending] at hcons
        exact (List.cons.inj hcons).2.symm

/-- They are acknowledged. A recovery symbol is due, and there is nothing for it to cover. -/
theorem ackedRun_acked : ∃ events, ∃ e : ContinuousStreamEncoder windowing,
    AckedRun fecRatio events 3 e ∧ e.encoder.added.length = 3 ∧
      e.isNextSymbolFec fecRatio = true ∧ e.hasData fecRatio = true ∧
      e.encoder.encoder.window.count = 0 := by
  obtain ⟨events, e, hrun, hadded, hemitted, hpending⟩ := ackedRun_sent 3 le_rfl
  have hnum : deserializeHeaderPacketNum [3] = some (3, []) := rfl
  have hack := Windowing.encoderAck_of_some (s := e.encoder.encoder) hnum
  have hsuccess : (windowing.encoderAck e.encoder.encoder [3]).1 = .success :=
    congrArg Prod.fst hack
  have hcall := processAck_ok_iff.mpr ⟨hsuccess, rfl⟩
  have hisAck : IsAck [3] 3 := ⟨[], hnum⟩
  have hrun' := AckedRun.ack 3 hrun hisAck (by omega) (by simp [siamesePacketNumCount])
    (.processAck [3] hcall)
  have hpaced := paced_of_run regular_fecRatio hrun'.run
  have hholds := hrun'.holds Windowing.windowed
  have hnext := (hpaced.isNextSymbolFec_iff regular_fecRatio).mpr (by
    show e.encoder.emitted.length < Pacing.quota _ _ e.encoder.added.length
    rw [hadded, hemitted]
    simp [Pacing.quota])
  exact ⟨_, _, hrun', hadded, hnext, by simp only [hasData, hnext, Bool.or_true],
    hholds.window.count_eq_zero_iff.mpr hadded.symm⟩

/-- While there is data, the next `get_symbol` returns exactly if the window has something to
cover, or room, for it. With acks for chunks that were sent the window has something to
cover exactly while some chunk is not acknowledged. -/
theorem hasData_guards_iff {S : Siamese} {view : S.Encoder → SiameseEncoder}
    (hlaw : S.Windowed view) {e : ContinuousStreamEncoder S}
    (hdata : e.hasData fecRatio = true) :
    ((∃ symbol e', getSymbol fecRatio e = .ok symbol e') ↔ e.CanSend fecRatio view) ∧
      ∀ events acked, AckedRun fecRatio events acked e →
        ((view e.encoder.encoder).window.count ≠ 0 ↔ acked < e.encoder.added.length) := by
  refine ⟨getSymbol_returns_iff hlaw hdata, fun events acked hacked => ?_⟩
  have hholds := hacked.holds hlaw
  have hle := hholds.window.acked_le
  rw [ne_eq, hholds.window.count_eq_zero_iff]
  omega

/-- A chunk is queued, or three chunks are sent and acknowledged. -/
theorem hasData_guards_iff_queued_and_acked :
    ((∃ symbol e', getSymbol fecRatio ({ pending := [[7]] } : ContinuousStreamEncoder windowing) =
      .ok symbol e') ↔
      CanSend fecRatio id ({ pending := [[7]] } : ContinuousStreamEncoder windowing)) ∧
    ∃ events, ∃ e : ContinuousStreamEncoder windowing, AckedRun fecRatio events 3 e ∧
      e.hasData fecRatio = true ∧ e.encoder.encoder.window.count = 0 ∧
      ¬∃ symbol e', getSymbol fecRatio e = .ok symbol e' := by
  refine ⟨(hasData_guards_iff Windowing.windowed rfl).1, ?_⟩
  obtain ⟨events, e, hrun, hadded, hnext, hdata, -⟩ := ackedRun_acked
  obtain ⟨hreturns, hcovers⟩ := hasData_guards_iff Windowing.windowed hdata
  have hcount : e.encoder.encoder.window.count = 0 := by
    by_contra hne
    have hunacked := (hcovers events 3 hrun).mp hne
    omega
  exact ⟨events, e, hrun, hdata, hcount, fun h => (hreturns.mp h).recovery hnext hcount⟩

/-- Three chunks are sent and acknowledged. A recovery symbol is due, and fails. -/
theorem acked_chunks_fail_get_symbol : ∃ events, ∃ e : ContinuousStreamEncoder windowing,
    AckedRun fecRatio events 3 e ∧ e.encoder.added.length - 3 < siameseMaxPackets ∧
      e.hasData fecRatio = true ∧ ¬∃ symbol e', getSymbol fecRatio e = .ok symbol e' := by
  obtain ⟨events, e, hrun, hadded, hnext, hdata, hcount⟩ := ackedRun_acked
  refine ⟨events, e, hrun, by simp [hadded, siameseMaxPackets], hdata, ?_⟩
  intro hreturns
  exact ((getSymbol_returns_iff Windowing.windowed hdata).mp hreturns).recovery hnext hcount

end FecRelay.ContinuousStreamEncoder
