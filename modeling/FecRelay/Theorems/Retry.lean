import FecRelay.Theorems.Guard

/-!
# Calls of a stream that throw

A call that throws may have written some of its fields already. `get_symbol` counts a
recovery symbol before the codec makes it, and takes a chunk off the queue before the codec
takes it. `get_chunk` counts a chunk before it looks whether there is one. Only the
`ENFORCE` that looks for a pending chunk stands before the first write.
-/

namespace FecRelay

open FecRelay.Base

variable {S : Siamese}

/-- A counter that wraps to zero is changed by counting. -/
theorem succ_mod_ne {f : Nat} (hf : 2 ≤ f) (k : Nat) : (k + 1) % f ≠ k := by
  rcases Nat.lt_trichotomy (k + 1) f with hlt | hlast | hover
  · rw [Nat.mod_eq_of_lt hlt]
    omega
  · rw [hlast, Nat.mod_self]
    omega
  · have hmod := Nat.mod_lt (k + 1) (show 0 < f by omega)
    omega

/-! ## Encoder -/

namespace ContinuousStreamEncoder

/-- The pending queue, the segment counters and the next index. -/
def bookkeeping (e : ContinuousStreamEncoder S) : List Bytes × Nat × Nat × Nat :=
  (e.pending, e.segmentChunkIndex1, e.segmentFecIndex, e.nextIndex)

variable {ratio : Rat} {e e' : ContinuousStreamEncoder S} {fault : Fault}

/-- How a `get_symbol` throws: the recovery symbol is counted but not made, there is no
chunk, or the chunk in front is off the queue but not added. -/
theorem getSymbol_error (h : getSymbol ratio e = .error fault e') :
    (e.isNextSymbolFec ratio = true ∧ ∃ x, e' = e.recovered ratio x) ∨
    (e.isNextSymbolFec ratio = false ∧ e.pending = [] ∧ e' = e) ∨
    (e.isNextSymbolFec ratio = false ∧ ∃ chunk rest x, e.pending = chunk :: rest ∧
      e' = { e with pending := rest, encoder := x }) := by
  rw [getSymbol, Method.bind_of_ok (Method.get_apply e)] at h
  cases hfec : e.isNextSymbolFec ratio with
  | true =>
      rw [hfec, if_pos rfl, Method.bind_of_ok (Method.modify_apply _ e)] at h
      unfold generateFecSymbol onEncoder at h
      obtain ⟨x, -, rfl⟩ := Method.zoom_error h
      exact Or.inl ⟨rfl, x, rfl⟩
  | false =>
      rw [hfec, if_neg Bool.false_ne_true] at h
      apply Or.inr
      cases hpending : e.pending with
      | nil =>
          rw [hpending] at h
          cases h
          exact Or.inl ⟨rfl, rfl, rfl⟩
      | cons chunk rest =>
          have hsome : (!e.pending.isEmpty) = true := by simp [hpending]
          have hpop : onPending popFront e = .ok chunk { e with pending := rest } :=
            Method.zoom_of_ok (popFront_ok_iff.mpr hpending)
          rw [hsome, enforce_true, Method.bind_of_ok (Method.lift_ok () e),
            Method.bind_of_ok hpop] at h
          rcases Method.bind_error_iff.mp h with hadd | ⟨index, e₁, -, h⟩
          · obtain ⟨x, -, rfl⟩ := Method.zoom_error hadd
            exact Or.inr ⟨rfl, chunk, rest, x, rfl, rfl⟩
          · cases h

/-- A `get_symbol` that throws has written nothing exactly if it was stopped by the
`ENFORCE`. -/
theorem getSymbol_restores_iff (hratio : 2 ≤ numerator ratio)
    (h : getSymbol ratio e = .error fault e') :
    (Method.Restores bookkeeping (getSymbol ratio) e ↔
      e.isNextSymbolFec ratio = false ∧ e.pending = []) ∧
    (e.isNextSymbolFec ratio = false ∧ e.pending = [] →
      Method.Restores id (getSymbol ratio) e) := by
  rw [Method.restores_iff_of_error h, Method.restores_iff_of_error h]
  rcases getSymbol_error h with ⟨hfec, x, rfl⟩ | ⟨hfec, hpending, rfl⟩ |
    ⟨hfec, chunk, rest, x, hpending, rfl⟩
  · have hcounted : (e.segmentFecIndex + 1) % numerator ratio ≠ e.segmentFecIndex :=
      succ_mod_ne hratio _
    rw [hfec]
    constructor
    · refine ⟨fun hsame => ?_, fun hfalse => by simp at hfalse⟩
      exact absurd (congrArg (·.2.2.1) hsame) hcounted
    · intro hfalse
      simp at hfalse
  · exact ⟨⟨fun _ => ⟨hfec, hpending⟩, fun _ => rfl⟩, fun _ => rfl⟩
  · rw [hpending]
    constructor
    · refine ⟨fun hsame => ?_, fun hnil => by simp at hnil⟩
      have hshort : rest = e.pending := congrArg Prod.fst hsame
      simp [hpending] at hshort
    · intro hnil
      simp at hnil

end ContinuousStreamEncoder

/-! ## Decoder -/

namespace ContinuousStreamDecoder

variable {d : ContinuousStreamDecoder S}

/-- An empty queue throws once its chunk is counted. -/
theorem getChunk_of_empty (h : d.symbolsAhead.c = []) : getChunk d =
    .error (.runtimeError "pop_value: empty queue!")
      { d with nextIndex := siamesePacketNumInc d.nextIndex } := by
  have hpop : onSymbolsAhead MovablePriorityQueue.popValue
      { d with nextIndex := siamesePacketNumInc d.nextIndex } =
      .error (.runtimeError "pop_value: empty queue!")
        { d with nextIndex := siamesePacketNumInc d.nextIndex } :=
    Method.zoom_of_error (MovablePriorityQueue.popValue_of_empty h)
  rw [getChunk, Method.bind_of_ok (Method.modify_apply _ d), Method.bind_of_error hpop]

/-- `get_chunk` throws exactly if nothing is queued. -/
theorem getChunk_returns_iff : Method.returned (getChunk d) = none ↔ d.symbolsAhead.c = [] := by
  cases htop : d.symbolsAhead.top with
  | none =>
      have hnil : d.symbolsAhead.c = [] := PriorityBag.top_eq_none_iff.mp htop
      simp [getChunk_of_empty hnil, hnil]
  | some symbol =>
      have hne : d.symbolsAhead.c ≠ [] := List.ne_nil_of_mem (PriorityBag.top_mem htop)
      simp [getChunk_of_top htop, hne]

/-- A `get_chunk` that throws has counted a chunk all the same. -/
theorem not_restores_getChunk (h : Method.returned (getChunk d) = none) :
    ¬Method.Restores nextIndex getChunk d := by
  rw [Method.restores_iff_of_error (getChunk_of_empty (getChunk_returns_iff.mp h))]
  exact succ_mod_ne (by decide) d.nextIndex

end ContinuousStreamDecoder

/-! ## Calls that leave no trace -/

open ContinuousStreamEncoder
open ContinuousStreamDecoder (getChunk getChunk_of_empty not_restores_getChunk)

/-- **What a call that throws leaves.** A `get_symbol` leaves its queue and its counters as
they were, and the whole encoder with them, exactly if no recovery symbol is next and nothing
is pending. A `get_chunk` never does. -/
theorem throw_leaves_no_trace_iff {S : Siamese} :
    (∀ e : ContinuousStreamEncoder S, Method.returned (getSymbol fecRatio e) = none →
      ((Method.Restores bookkeeping (getSymbol fecRatio) e ↔
        e.isNextSymbolFec fecRatio = false ∧ e.pending = []) ∧
      (e.isNextSymbolFec fecRatio = false ∧ e.pending = [] →
        Method.Restores id (getSymbol fecRatio) e))) ∧
    (∀ d : ContinuousStreamDecoder S, Method.returned (getChunk d) = none →
      ¬Method.Restores ContinuousStreamDecoder.nextIndex getChunk d) := by
  refine ⟨fun e h => ?_, fun d h => not_restores_getChunk h⟩
  cases hcall : getSymbol fecRatio e with
  | ok symbol e' => simp [hcall] at h
  | error fault e' => exact getSymbol_restores_iff (by simp) hcall

/-- A new encoder that is asked for a symbol throws and leaves no trace; a new decoder that
is asked for a chunk leaves one. -/
theorem throw_leaves_no_trace_iff_new :
    Method.Restores bookkeeping (getSymbol fecRatio) ({} : ContinuousStreamEncoder windowing) ∧
      ¬Method.Restores ContinuousStreamDecoder.nextIndex getChunk
        ({} : ContinuousStreamDecoder windowing) := by
  have hpaced : ({} : ContinuousStreamEncoder windowing).Paced fecRatio := paced_init
  have hnext : ({} : ContinuousStreamEncoder windowing).isNextSymbolFec fecRatio = false := by
    rw [Bool.eq_false_iff, ne_eq, hpaced.isNextSymbolFec_iff regular_fecRatio]
    simp [Pacing.quota]
  have hthrows : Method.returned
      (getSymbol fecRatio ({} : ContinuousStreamEncoder windowing)) = none := by
    rw [getSymbol, Method.bind_of_ok (Method.get_apply _), hnext]
    rfl
  exact ⟨(throw_leaves_no_trace_iff.1 _ hthrows).1.mpr ⟨hnext, rfl⟩,
    throw_leaves_no_trace_iff.2 _ rfl⟩

/-- Three chunks are sent and acknowledged: the recovery symbol that is due then fails, and
it is counted. A new decoder that is asked for a chunk throws, and drops the first chunk of
the stream when it arrives. -/
theorem throws_leave_a_trace :
    (∃ events, ∃ e : ContinuousStreamEncoder windowing, AckedRun fecRatio events 3 e ∧
      Method.returned (getSymbol fecRatio e) = none ∧
      ¬Method.Restores bookkeeping (getSymbol fecRatio) e) ∧
    (∃ d : ContinuousStreamDecoder windowing, getChunk {} = .error
        (.runtimeError "pop_value: empty queue!") d ∧
      ¬Method.Restores ContinuousStreamDecoder.nextIndex getChunk
        ({} : ContinuousStreamDecoder windowing) ∧
      (d.withChunk ([7], 0)).symbolsAhead.c = []) := by
  refine ⟨?_, _, getChunk_of_empty rfl, not_restores_getChunk rfl, rfl⟩
  obtain ⟨events, e, hrun, -, hnext, hdata, hcount⟩ := ackedRun_acked
  cases hcall : getSymbol fecRatio e with
  | ok symbol e' =>
      have hsend := (getSymbol_returns_iff Windowing.windowed hdata).mp ⟨symbol, e', hcall⟩
      exact absurd hcount (hsend.recovery hnext)
  | error fault e' =>
      refine ⟨events, e, hrun, by simp [hcall], fun hrestores => ?_⟩
      have hcond := (getSymbol_restores_iff (by simp) hcall).1.mp hrestores
      simp [hnext] at hcond

end FecRelay
