import FecRelay.Codec.Echo
import FecRelay.Session

/-!
# The schedule of recovery symbols

In a segment of d chunks, f recovery symbols go out, number k of them after ceil((k+1)d/f)
chunks. The two counters of an encoder keep this schedule unless one of them has only one
place: then the last recovery symbol of a segment is followed by itself, without end. At
ratios with great terms the comparison of the counters overflows.
-/

namespace FecRelay.ContinuousStreamEncoder

open FecRelay.Base

variable {S : Siamese} {ratio : Rat} {e e' : ContinuousStreamEncoder S}

/-- The number of chunks after which recovery symbol number `r` is due, which is number
r mod f of segment r / f. -/
def dueInStream (ratio : Rat) (r : Nat) : Nat :=
  r / numerator ratio * ratio.den + Pacing.due (numerator ratio) ratio.den (r % numerator ratio)

theorem dueInStream_eq (hratio : 0 < ratio) (r : Nat) :
    dueInStream ratio r = Pacing.due (numerator ratio) ratio.den r := by
  unfold dueInStream
  rw [← Pacing.due_add_mul (numerator_pos hratio), Nat.div_add_mod']

/-- What the schedule says of an encoder: recovery symbols go out when they are due, chunks
when no recovery symbol is, and the loop over `has_data` ends with all of them sent,
unless the codec refuses. -/
structure Scheduled (ratio : Rat) (e : ContinuousStreamEncoder S) : Prop where
  recovery : ∀ symbol e', getSymbolInt ratio e = .ok symbol e' →
    e'.encoder.emitted ≠ e.encoder.emitted →
    e.encoder.added.length = dueInStream ratio e.encoder.emitted.length
  chunk : ∀ symbol e', getSymbolInt ratio e = .ok symbol e' →
    e'.encoder.added ≠ e.encoder.added →
    ∀ r, dueInStream ratio r ≤ e.encoder.added.length → r < e.encoder.emitted.length
  drained : e.hasDataInt ratio = .ok false → e.pending = [] ∧
    e.encoder.emitted.length = e.encoder.added.length * numerator ratio / ratio.den
  ends : ∃ rounds, ∀ fault, Method.thrown (drainSymbolsInt ratio rounds e) = some fault →
    ∃ expr, fault = .enforce expr

/-- Every state that an encoder reaches is on schedule. -/
def KeepsSchedule (ratio : Rat) : Prop :=
  ∀ (S : Siamese) (events : List Event) (e : ContinuousStreamEncoder S),
    Run (IntStep ratio) {} events e → Scheduled ratio e

/-! ## Regular ratios -/

theorem step_run {events : List Event} (h : Run (IntStep ratio) {} events e) :
    Run (Step ratio) {} events e := by
  induction h with
  | nil => exact .nil _
  | snoc _ hstep ih => exact .snoc ih hstep.step.1

theorem Paced.fits (h : e.Paced ratio) (hratio : 0 < ratio)
    (hfits : ∀ k < numerator ratio, QuotientFits ratio k) : e.Fits ratio := by
  apply hfits
  have hmark : e.segmentFecIndex = _ := h.mark
  rw [hmark]
  exact Nat.mod_lt _ (numerator_pos hratio)

theorem Paced.scheduled (h : e.Paced ratio) (hratio : Regular ratio)
    (hfits : ∀ k < numerator ratio, QuotientFits ratio k) : Scheduled ratio e := by
  have he := h.fits hratio.pos hfits
  have hf := numerator_pos hratio.pos
  have hd := ratio.den_pos
  refine ⟨?_, ?_, ?_, e.remaining ratio + 1, ?_⟩
  · intro symbol e' hcall hnew
    rw [getSymbolInt_of_fits he] at hcall
    obtain ⟨-, ⟨hmarks, -⟩ | ⟨-, -, -, hsame⟩⟩ := h.getSymbol_cases hratio hcall
    · rw [dueInStream_eq hratio.pos]
      exact (h.due_eq hf hd hmarks).symm
    · exact absurd hsame hnew
  · intro symbol e' hcall hnew r hdue
    rw [getSymbolInt_of_fits he] at hcall
    obtain ⟨-, ⟨-, -, hsame, -⟩ | ⟨hquota, -⟩⟩ := h.getSymbol_cases hratio hcall
    · exact absurd hsame hnew
    · rw [dueInStream_eq hratio.pos, Pacing.due_le_iff hf hd] at hdue
      omega
  · intro hdata
    rw [hasDataInt_of_fits he] at hdata
    exact (h.hasData_eq_false_iff hratio).mp (Except.ok.inj hdata)
  · intro fault hthrown
    have hindex : e.segmentFecIndex < numerator ratio := by
      have hmark : e.segmentFecIndex = _ := h.mark
      rw [hmark]
      exact Nat.mod_lt _ hf
    rw [drainSymbolsInt_eq hratio.pos hfits _ hindex] at hthrown
    exact Paced.drainSymbols_ends hratio _ h (Nat.lt_succ_self _) fault hthrown

/-! ## Other ratios -/

/-- The counters are in range, and nothing has overflowed so far. -/
structure Placed (ratio : Rat) (e : ContinuousStreamEncoder S) : Prop where
  chunkIndex : e.segmentChunkIndex1 = if e.encoder.added.length = 0 then 0
    else (e.encoder.added.length - 1) % ratio.den + 1
  fecIndex : e.segmentFecIndex = e.encoder.emitted.length % numerator ratio
  fits : ∀ k < e.encoder.emitted.length, QuotientFits ratio (k % numerator ratio)

theorem placed_init : ({} : ContinuousStreamEncoder S).Placed ratio where
  chunkIndex := rfl
  fecIndex := (Nat.zero_mod _).symm
  fits k hk := absurd hk (Nat.not_lt_zero k)

theorem IntStep.placed {x : Event} (h : IntStep ratio e x e') (he : e.Placed ratio) :
    e'.Placed ratio := by
  cases h with
  | queueChunk chunk hcall =>
      cases hcall
      exact ⟨he.chunkIndex, he.fecIndex, he.fits⟩
  | processAck message hcall =>
      obtain ⟨expects, rfl⟩ := processAck_ok hcall
      exact ⟨he.chunkIndex, he.fecIndex, he.fits⟩
  | getSymbol symbol _ hcall =>
      obtain ⟨hfits, hcall⟩ := getSymbolInt_ok_iff.mp hcall
      rcases getSymbol_ok_iff.mp hcall with ⟨_, x, hx, rfl⟩ | ⟨_, rest, x, _, hx, rfl⟩
      · obtain ⟨-, -, rfl⟩ := StreamFecEncoder.generateFecSymbol_ok_iff.mp hx
        refine ⟨he.chunkIndex, ?_, ?_⟩
        · show (e.segmentFecIndex + 1) % numerator ratio =
            (e.encoder.emitted ++ [_]).length % numerator ratio
          rw [he.fecIndex, Nat.mod_add_mod, List.length_append, List.length_singleton]
        · intro k hk
          have hk : k < (e.encoder.emitted ++ [(S.encode e.encoder.encoder).2.1]).length := hk
          rw [List.length_append, List.length_singleton] at hk
          rcases Nat.lt_succ_iff_lt_or_eq.mp hk with hk | rfl
          · exact he.fits k hk
          · rw [← he.fecIndex]
            exact hfits
      · obtain ⟨-, -, rfl⟩ := StreamFecEncoder.addChunk_ok_iff.mp hx
        refine ⟨?_, he.fecIndex, he.fits⟩
        show e.segmentChunkIndex1 % ratio.den + 1 =
          if (e.encoder.added ++ [symbol.1]).length = 0 then 0
          else ((e.encoder.added ++ [symbol.1]).length - 1) % ratio.den + 1
        rw [List.length_append, List.length_singleton, if_neg (Nat.succ_ne_zero _),
          Nat.add_sub_cancel, he.chunkIndex]
        by_cases hzero : e.encoder.added.length = 0
        · simp [hzero]
        · rw [if_neg hzero, Nat.mod_add_mod, Nat.sub_add_cancel (Nat.pos_of_ne_zero hzero)]

theorem placed_of_run {events : List Event} (h : Run (IntStep ratio) {} events e) :
    e.Placed ratio :=
  Run.invariant (I := Placed ratio) (fun _ _ _ he hstep => IntStep.placed hstep he) h placed_init

/-- The echoing codec refuses nothing once a chunk was added. -/
theorem getSymbolInt_echoing {e : ContinuousStreamEncoder echoing} (hratio : 0 < ratio)
    (he : e.Placed ratio) (hrecorded : e.encoder.Recorded) (hdata : e.hasDataInt ratio = .ok true)
    (expr : String) : Method.thrown (getSymbolInt ratio e) ≠ some (.enforce expr) := by
  intro hthrown
  by_cases hfits : e.Fits ratio
  · rw [getSymbolInt_of_fits hfits] at hthrown
    rw [hasDataInt_of_fits hfits] at hdata
    have hreturns : ∃ symbol e', getSymbol ratio e = .ok symbol e' := by
      cases hfec : e.isNextSymbolFec ratio with
      | true =>
          have hne : e.encoder.added ≠ [] := by
            -- no mark is due before the first chunk
            intro hnil
            have hmarks := hfec
            rw [isNextSymbolFec_eq hratio] at hmarks
            have hitem : e.segmentChunkIndex1 = 0 := by
              rw [he.chunkIndex, hnil]
              rfl
            have hdue := Pacing.due_pos (numerator_pos hratio) ratio.den_pos e.segmentFecIndex
            have heq : e.segmentChunkIndex1 = _ := of_decide_eq_true hmarks
            rw [hitem] at heq
            exact absurd heq.symm hdue.ne'
          have hsuccess : (Echo.recovery e.encoder.encoder).1 = .success := by
            rw [Echo.encoder_eq_added hrecorded]
            unfold Echo.recovery
            rw [List.getLast?_eq_some_getLast hne]
          exact ⟨_, _, getSymbol_ok_iff.mpr (Or.inl ⟨hfec, _,
            StreamFecEncoder.generateFecSymbol_ok_iff.mpr ⟨hsuccess, rfl, rfl⟩, rfl⟩)⟩
      | false =>
          unfold hasData at hdata
          rw [hfec] at hdata
          cases hpending : e.pending with
          | nil =>
              rw [hpending] at hdata
              cases hdata
          | cons chunk rest =>
              exact ⟨(chunk, _), _, getSymbol_ok_iff.mpr (Or.inr ⟨hfec, rest, _, hpending,
                StreamFecEncoder.addChunk_ok_iff.mpr ⟨rfl, rfl, rfl⟩, rfl⟩)⟩
    obtain ⟨symbol, e', hok⟩ := hreturns
    rw [hok] at hthrown
    cases hthrown
  · rw [getSymbolInt, Method.bind_of_ok (Method.get_apply e),
      isNextSymbolFecInt_of_not_fits hfits] at hthrown
    cases hthrown

theorem drainSymbolsInt_echoing (hratio : 0 < ratio) : ∀ (rounds : Nat)
    {e : ContinuousStreamEncoder echoing}, e.Placed ratio → e.encoder.Recorded →
    ∀ expr, Method.thrown (drainSymbolsInt ratio rounds e) ≠ some (.enforce expr) := by
  intro rounds
  induction rounds with
  | zero => intro e _ _ expr h; cases h
  | succ rounds ih =>
      intro e he hrecorded expr hthrown
      rw [drainSymbolsInt, Method.bind_of_ok (Method.get_apply e)] at hthrown
      cases hdata : e.hasDataInt ratio with
      | error fault =>
          rw [hdata] at hthrown
          unfold hasDataInt at hdata
          split at hdata
          · by_cases hfits : e.Fits ratio
            · rw [isNextSymbolFecInt_of_fits hfits] at hdata
              cases hdata
            · rw [isNextSymbolFecInt_of_not_fits hfits] at hdata
              cases hdata
              cases hthrown
          · cases hdata
      | ok more =>
          rw [hdata, Method.bind_of_ok (Method.lift_ok _ e)] at hthrown
          cases more with
          | false => cases hthrown
          | true =>
              rw [if_pos rfl, Method.bind_apply] at hthrown
              cases hsymbol : getSymbolInt ratio e with
              | error fault e₁ =>
                  rw [hsymbol] at hthrown
                  have hcall := getSymbolInt_echoing hratio he hrecorded hdata expr
                  rw [hsymbol] at hcall
                  exact hcall hthrown
              | ok symbol e₁ =>
                  rw [hsymbol] at hthrown
                  have hstep : IntStep ratio e (.getSymbol symbol) e₁ :=
                    .getSymbol symbol hdata hsymbol
                  have hrest := ih (hstep.placed he) (hstep.step.1.recorded hrecorded) expr
                  dsimp only at hthrown
                  rw [Method.bind_apply] at hthrown
                  cases hloop : drainSymbolsInt ratio rounds e₁ with
                  | error fault e₂ =>
                      rw [hloop] at hthrown hrest
                      exact hrest hthrown
                  | ok rest e₂ =>
                      rw [hloop] at hthrown
                      cases hthrown

/-- An encoder that was given `n` chunks. -/
def given (n : Nat) : ContinuousStreamEncoder S := { pending := List.replicate n [0] }

theorem run_given (n : Nat) : Run (IntStep ratio) {}
    (List.replicate n (Event.queueChunk [0])) (given n : ContinuousStreamEncoder S) := by
  induction n with
  | zero => exact .nil _
  | succ n ih =>
      rw [List.replicate_succ']
      refine .snoc ih (.queueChunk [0] ?_)
      unfold given
      rw [List.replicate_succ']
      rfl

/-- If the schedule is kept, a segment of chunks can be drained, and is. -/
theorem KeepsSchedule.segment (h : KeepsSchedule ratio) (hratio : 0 < ratio) :
    ∃ events, ∃ e : ContinuousStreamEncoder echoing, Run (IntStep ratio) {} events e ∧
      e.hasDataInt ratio = .ok false ∧ e.pending = [] ∧ e.encoder.added.length = ratio.den ∧
      e.encoder.emitted.length = numerator ratio := by
  have hgiven : Run (IntStep ratio) {} (List.replicate ratio.den (Event.queueChunk [0]))
      (given ratio.den : ContinuousStreamEncoder echoing) := run_given ratio.den
  obtain ⟨rounds, hends⟩ := (h echoing _ _ hgiven).ends
  cases hdrain : drainSymbolsInt ratio rounds (given ratio.den : ContinuousStreamEncoder echoing) with
  | error fault e =>
      rw [hdrain] at hends
      obtain ⟨expr, rfl⟩ := hends fault rfl
      have hnever := drainSymbolsInt_echoing hratio rounds (placed_of_run hgiven)
        (recorded_of_run (step_run hgiven)) expr
      rw [hdrain] at hnever
      exact absurd rfl hnever
  | ok symbols e =>
      obtain ⟨hrun, hend⟩ := run_of_drainSymbolsInt rounds hdrain
      have hall := Run.append hgiven hrun
      obtain ⟨hpending, hemitted⟩ := (h echoing _ _ hall).drained hend
      have hadded : e.encoder.added.length = ratio.den := by
        have hinput := input_of_run (step_run hall)
        rw [hpending, List.append_nil] at hinput
        rw [hinput]
        simp [List.filterMap_append, Event.chunk?, List.filterMap_replicate]
      rw [hadded, Nat.mul_div_cancel_left _ ratio.den_pos] at hemitted
      exact ⟨_, e, hall, hend, hpending, hadded, hemitted⟩

/-- A counter with only one place has the loop go on after a segment. -/
theorem KeepsSchedule.two_le (h : KeepsSchedule ratio) (hratio : 0 < ratio) :
    2 ≤ numerator ratio ∧ 2 ≤ ratio.den := by
  have hf := numerator_pos hratio
  have hd := ratio.den_pos
  by_contra hsingle
  have hone : numerator ratio = 1 ∨ ratio.den = 1 := by omega
  obtain ⟨events, e, hrun, hdata, hpending, hadded, -⟩ := h.segment hratio
  have he := placed_of_run hrun
  have hitem : e.counters.item1 = ratio.den := by
    show e.segmentChunkIndex1 = ratio.den
    rw [he.chunkIndex, hadded, if_neg hd.ne', Nat.mod_eq_of_lt (by omega)]
    omega
  have hmark : e.counters.mark < numerator ratio := by
    show e.segmentFecIndex < numerator ratio
    rw [he.fecIndex]
    exact Nat.mod_lt _ hf
  have hmarks := Pacing.Counters.marks_of_single hf hd hone hitem hmark
  rw [← isNextSymbolFec_eq hratio] at hmarks
  unfold hasDataInt at hdata
  rw [hpending, List.isEmpty_nil, if_pos rfl] at hdata
  by_cases hfits : e.Fits ratio
  · rw [isNextSymbolFecInt_of_fits hfits, hmarks] at hdata
    cases hdata
  · rw [isNextSymbolFecInt_of_not_fits hfits] at hdata
    cases hdata

/-- The schedule is kept exactly at the ratios with two places or more on either counter
and terms that leave room for the sum in `ceil`. -/
theorem keepsSchedule_iff {ratio : Rat} (hratio : 0 < ratio) : KeepsSchedule ratio ↔
    2 ≤ numerator ratio ∧ 2 ≤ ratio.den ∧
      (((numerator ratio - 1) * ratio.den + numerator ratio : Nat) : Int) ≤ intMax := by
  constructor
  · intro h
    obtain ⟨hf, hd⟩ := h.two_le hratio
    refine ⟨hf, hd, (quotientsFit_iff hratio hf).mp fun k hk => ?_⟩
    obtain ⟨events, e, hrun, -, -, -, hemitted⟩ := h.segment hratio
    have hfits := (placed_of_run hrun).fits k (hemitted ▸ hk)
    rwa [Nat.mod_eq_of_lt hk] at hfits
  · rintro ⟨hf, hd, hterms⟩ S events e hrun
    have hregular : Regular ratio := ⟨hratio, hf, hd⟩
    exact (paced_of_run hregular (step_run hrun)).scheduled hregular
      ((quotientsFit_iff hratio hf).mpr hterms)

/-- The shipped ratio keeps its schedule. -/
theorem keepsSchedule_fecRatio : KeepsSchedule fecRatio := by
  apply (keepsSchedule_iff regular_fecRatio.pos).mpr
  simp [intMax]

/-- One recovery symbol for five chunks: after five chunks it is sent again and again. -/
theorem one_fifth_misses_schedule : ¬KeepsSchedule (1 / 5) := by
  intro h
  have hf := (h.two_le (by norm_num)).1
  have hnum : (1 / 5 : Rat).num = 1 := by norm_num
  rw [numerator, hnum] at hf
  norm_num at hf

end FecRelay.ContinuousStreamEncoder
