import FecRelay.Base.Pacing
import FecRelay.Stream

/-!
# Recovery symbols at a ratio

The two segment counters of a `ContinuousStreamEncoder` pace its recovery symbols at any
ratio f/d. The calls that compare them do so with `int`s, which can overflow at a ratio
that is out of the ordinary.
-/

namespace FecRelay

open FecRelay.Base

/-! ## Rounding -/

/-- `ceil` rounds up. -/
theorem ceil_eq (r : Rat) : ceil r = ⌈r⌉ := by
  have hden : (0 : Rat) < r.den := by exact_mod_cast r.den_pos
  have hr : (r.num : Rat) / r.den = r := Rat.num_div_den r
  symm
  rw [Int.ceil_eq_iff]
  unfold ceil
  have hdivmod := Int.emod_add_mul_ediv (r.num + r.den - 1) r.den
  have hnonneg := Int.emod_nonneg (r.num + r.den - 1) (b := r.den) (by exact_mod_cast r.den_ne_zero)
  have hlt := Int.emod_lt_of_pos (r.num + r.den - 1) (b := r.den) (by exact_mod_cast r.den_pos)
  set q := (r.num + r.den - 1) / r.den with hq
  have hlower : (q - 1) * r.den < r.num := by linarith
  have hupper : r.num ≤ q * r.den := by linarith
  constructor
  · rw [← hr, lt_div_iff₀ hden]
    exact_mod_cast hlower
  · rw [← hr, div_le_iff₀ hden]
    exact_mod_cast hupper

/-- The numerator of a ratio. -/
def numerator (ratio : Rat) : Nat := ratio.num.toNat

@[simp] theorem numerator_fecRatio : numerator fecRatio = 2 := by
  have hnum : fecRatio.num = 2 := by norm_num [fecRatio]
  rw [numerator, hnum]
  rfl

@[simp] theorem den_fecRatio : fecRatio.den = 5 := by norm_num [fecRatio]

theorem numerator_pos {ratio : Rat} (hratio : 0 < ratio) : 0 < numerator ratio := by
  have hnum : 0 < ratio.num := Rat.num_pos.mpr hratio
  unfold numerator
  omega

theorem numerator_cast {ratio : Rat} (hratio : 0 < ratio) :
    (numerator ratio : Int) = ratio.num :=
  Int.toNat_of_nonneg (Rat.num_pos.mpr hratio).le

/-- The quotient that is rounded, as one fraction. -/
theorem quotient_eq {ratio : Rat} (hratio : 0 < ratio) (k : Nat) :
    ((k + 1 : Nat) : Rat) / ratio =
      (((k + 1) * ratio.den : Nat) : Int) / ((numerator ratio : Nat) : Int) := by
  have hnum : (ratio.num : Rat) ≠ 0 := by exact_mod_cast (Rat.num_pos.mpr hratio).ne'
  have hden : (ratio.den : Rat) ≠ 0 := by exact_mod_cast ratio.den_ne_zero
  rw [numerator_cast hratio]
  nth_rewrite 1 [← Rat.num_div_den ratio]
  push_cast
  field_simp

/-- `ceil((k+1)/ratio)` is where mark `k` is due. -/
theorem ceil_div_eq_due {ratio : Rat} (hratio : 0 < ratio) (k : Nat) :
    ceil (((k + 1 : Nat) : Rat) / ratio) = Pacing.due (numerator ratio) ratio.den k := by
  have hfpos := numerator_pos hratio
  have hpos : (0 : Rat) < ((numerator ratio : Nat) : Int) := by exact_mod_cast hfpos
  rw [ceil_eq, quotient_eq hratio, Int.ceil_eq_iff]
  unfold Pacing.due
  set f := numerator ratio
  set x := (k + 1) * ratio.den
  have hdivmod := Nat.div_add_mod' (x + f - 1) f
  have hmod := Nat.mod_lt (x + f - 1) hfpos
  set m := (x + f - 1) / f
  constructor
  · rw [lt_div_iff₀ hpos]
    have hlower : ((m : Int) - 1) * f < x := by
      rw [sub_mul, one_mul]
      have hmul : ((m * f : Nat) : Int) = (m : Int) * f := Nat.cast_mul m f
      omega
    exact_mod_cast hlower
  · rw [div_le_iff₀ hpos]
    have hupper : x ≤ m * f := by omega
    exact_mod_cast hupper

/-! ## Rounding on `int`s -/

/-- `ceil(boost::rational<int>)`, whose sum may overflow. -/
def ceilInt (r : Rat) : Checked Int :=
  if r.num + r.den ≤ intMax then .ok (ceil r) else .error .signedOverflow

theorem ceilInt_of_le {r : Rat} (h : r.num + r.den ≤ intMax) : ceilInt r = .ok (ceil r) :=
  if_pos h

theorem ceilInt_of_not_le {r : Rat} (h : ¬r.num + r.den ≤ intMax) :
    ceilInt r = .error .signedOverflow :=
  if_neg h

/-- The quotient that says where mark `k` is due can be rounded. -/
def QuotientFits (ratio : Rat) (k : Nat) : Prop :=
  (((k + 1 : Nat) : Rat) / ratio).num + (((k + 1 : Nat) : Rat) / ratio).den ≤ intMax

/-- The quotients of a segment can be rounded if the last but one can, whose terms are
the greatest. -/
theorem quotientsFit_iff {ratio : Rat} (hratio : 0 < ratio) (hf : 2 ≤ numerator ratio) :
    (∀ k < numerator ratio, QuotientFits ratio k) ↔ (((numerator ratio - 1) * ratio.den + numerator ratio : Nat) : Int) ≤ intMax := by
  have hfpos : (0 : Int) < (numerator ratio : Nat) := by omega
  have hcoprime : Nat.Coprime (numerator ratio) ratio.den := by
    have hnum : ratio.num.natAbs = numerator ratio := by
      have := numerator_cast hratio
      omega
    rw [← hnum]
    exact ratio.reduced
  constructor
  · intro h
    have hlast := h (numerator ratio - 2) (by omega)
    unfold QuotientFits at hlast
    have hcop : Nat.Coprime ((((numerator ratio - 2 + 1) * ratio.den : Nat) : Int)).natAbs
        (((numerator ratio : Nat) : Int)).natAbs := by
      rw [Int.natAbs_natCast, Int.natAbs_natCast]
      apply Nat.Coprime.mul_left _ hcoprime.symm
      have hsucc : numerator ratio = numerator ratio - 2 + 1 + 1 := by omega
      rw [hsucc]
      exact (Nat.coprime_self_add_right).mpr (Nat.coprime_one_right _)
    rw [quotient_eq hratio, Rat.num_div_eq_of_coprime hfpos hcop,
      Rat.den_div_eq_of_coprime hfpos hcop] at hlast
    have hpred : numerator ratio - 2 + 1 = numerator ratio - 1 := by omega
    rw [hpred] at hlast
    push_cast at hlast ⊢
    exact hlast
  · intro h k hk
    refine le_trans ?_ h
    show (((k + 1 : Nat) : Rat) / ratio).num + (((k + 1 : Nat) : Rat) / ratio).den ≤ _
    rw [quotient_eq hratio]
    by_cases hround : k + 1 = numerator ratio
    · -- the last quotient is a whole number
      have hwhole : ((((k + 1) * ratio.den : Nat) : Int) : Rat) / ((numerator ratio : Nat) : Int) =
          ((ratio.den : Nat) : Rat) := by
        have hne : ((numerator ratio : Nat) : Rat) ≠ 0 := by exact_mod_cast (by omega)
        rw [hround]
        push_cast
        field_simp
      rw [hwhole, Rat.num_natCast, Rat.den_natCast]
      have hle : 1 * ratio.den ≤ (numerator ratio - 1) * ratio.den :=
        Nat.mul_le_mul_right _ (by omega)
      omega
    · rw [← Rat.divInt_eq_div]
      have hnum := Int.le_of_dvd (by exact_mod_cast Nat.mul_pos (Nat.succ_pos k) ratio.den_pos)
        (Rat.num_dvd (((k + 1) * ratio.den : Nat) : Int) hfpos.ne')
      have hden := Int.le_of_dvd hfpos
        (Rat.den_dvd (((k + 1) * ratio.den : Nat) : Int) ((numerator ratio : Nat) : Int))
      have hle : (k + 1) * ratio.den ≤ (numerator ratio - 1) * ratio.den :=
        Nat.mul_le_mul_right _ (by omega)
      omega

namespace ContinuousStreamEncoder

variable {S : Siamese} {ratio : Rat} {e e' : ContinuousStreamEncoder S}

/-- The segment counters. -/
def counters (e : ContinuousStreamEncoder S) : Pacing.Counters :=
  ⟨e.segmentChunkIndex1, e.segmentFecIndex⟩

/-- A recovery symbol is next when a mark is due. -/
theorem isNextSymbolFec_eq (hratio : 0 < ratio) (e : ContinuousStreamEncoder S) :
    e.isNextSymbolFec ratio = e.counters.marks (numerator ratio) ratio.den := by
  unfold isNextSymbolFec Pacing.Counters.marks counters
  dsimp only
  rw [ceil_div_eq_due hratio]
  simp

/-! ## Calls on `int`s -/

def isNextSymbolFecInt (ratio : Rat) (e : ContinuousStreamEncoder S) : Checked Bool := do
  let fecBefore ← ceilInt (((e.segmentFecIndex + 1 : Nat) : Rat) / ratio)
  pure (decide ((e.segmentChunkIndex1 : Int) = fecBefore))

def hasDataInt (ratio : Rat) (e : ContinuousStreamEncoder S) : Checked Bool :=
  if e.pending.isEmpty then e.isNextSymbolFecInt ratio else .ok true

/-- `get_symbol` asks `is_next_symbol_fec` first. -/
def getSymbolInt (ratio : Rat) : Method Fault (ContinuousStreamEncoder S) Symbol := do
  let e ← get
  let _ ← Method.lift (e.isNextSymbolFecInt ratio)
  getSymbol ratio

/-- The loop `while(has_data()) get_symbol()`. -/
def drainSymbolsInt (ratio : Rat) :
    Nat → Method Fault (ContinuousStreamEncoder S) (List Symbol)
  | 0 => throw .diverges
  | rounds + 1 => do
      let e ← get
      let more ← Method.lift (e.hasDataInt ratio)
      if more then
        let symbol ← getSymbolInt ratio
        let rest ← drainSymbolsInt ratio rounds
        pure (symbol :: rest)
      else
        pure []

/-- Nothing overflows when the next recovery symbol is asked for. -/
def Fits (ratio : Rat) (e : ContinuousStreamEncoder S) : Prop :=
  QuotientFits ratio e.segmentFecIndex

theorem isNextSymbolFecInt_of_fits (h : e.Fits ratio) :
    e.isNextSymbolFecInt ratio = .ok (e.isNextSymbolFec ratio) := by
  rw [isNextSymbolFecInt, ceilInt_of_le h]
  rfl

theorem isNextSymbolFecInt_of_not_fits (h : ¬e.Fits ratio) :
    e.isNextSymbolFecInt ratio = .error .signedOverflow := by
  rw [isNextSymbolFecInt, ceilInt_of_not_le h]
  rfl

theorem hasDataInt_of_fits (h : e.Fits ratio) :
    e.hasDataInt ratio = .ok (e.hasData ratio) := by
  unfold hasDataInt hasData
  rw [isNextSymbolFecInt_of_fits h]
  cases e.pending <;> rfl

theorem getSymbolInt_of_fits (h : e.Fits ratio) : getSymbolInt ratio e = getSymbol ratio e := by
  rw [getSymbolInt, Method.bind_of_ok (Method.get_apply e), isNextSymbolFecInt_of_fits h]
  rfl

/-- A `get_symbol` that returns has not overflowed. -/
theorem getSymbolInt_ok_iff {symbol : Symbol} : getSymbolInt ratio e = .ok symbol e' ↔
    e.Fits ratio ∧ getSymbol ratio e = .ok symbol e' := by
  by_cases hfits : e.Fits ratio
  · simp [getSymbolInt_of_fits hfits, hfits]
  · rw [getSymbolInt, Method.bind_of_ok (Method.get_apply e), isNextSymbolFecInt_of_not_fits hfits]
    simp [hfits, Method.bind_apply]

/-! ## Pace -/

/-- The counters are where the chunks added and the symbols emitted so far put them. -/
def Paced (ratio : Rat) (e : ContinuousStreamEncoder S) : Prop :=
  e.counters.OnPace (numerator ratio) ratio.den e.encoder.added.length e.encoder.emitted.length

theorem paced_init : ({} : ContinuousStreamEncoder S).Paced ratio := Pacing.Counters.onPace_init

theorem Paced.recovered (h : e.Paced ratio)
    (hmarks : e.encoder.emitted.length <
      Pacing.quota (numerator ratio) ratio.den e.encoder.added.length)
    {x : StreamFecEncoder S} {data : Bytes} (hadded : x.added = e.encoder.added)
    (hemitted : x.emitted = e.encoder.emitted ++ [data]) : (e.recovered ratio x).Paced ratio := by
  have hmark := h.onMark hmarks
  unfold Paced
  show (e.counters.onMark _).OnPace _ _ x.added.length x.emitted.length
  rw [hadded, hemitted, List.length_append, List.length_singleton]
  exact hmark

theorem Paced.added (h : e.Paced ratio)
    (hquota : Pacing.quota (numerator ratio) ratio.den e.encoder.added.length ≤
      e.encoder.emitted.length)
    {x : StreamFecEncoder S} {chunk : Bytes} (hadded : x.added = e.encoder.added ++ [chunk])
    (hemitted : x.emitted = e.encoder.emitted) (index : Nat) :
    (e.added ratio x index).Paced ratio := by
  have hitem := h.onItem hquota
  unfold Paced
  show (e.counters.onItem _).OnPace _ _ x.added.length x.emitted.length
  rw [hadded, hemitted, List.length_append, List.length_singleton]
  exact hitem

/-- Ratios for which neither counter has only one place. -/
structure Regular (ratio : Rat) : Prop where
  pos : 0 < ratio
  numerator : 2 ≤ numerator ratio
  denominator : 2 ≤ ratio.den

theorem regular_fecRatio : Regular fecRatio where
  pos := by norm_num [fecRatio]
  numerator := by simp
  denominator := by simp

/-- The encoder knows when a recovery symbol is missing. -/
theorem Paced.isNextSymbolFec_iff (h : e.Paced ratio) (hratio : Regular ratio) :
    e.isNextSymbolFec ratio = true ↔ e.encoder.emitted.length <
      Pacing.quota (numerator ratio) ratio.den e.encoder.added.length := by
  rw [isNextSymbolFec_eq hratio.pos]
  exact h.marks_iff hratio.numerator hratio.denominator

/-- What a symbol that was got is: a missing recovery symbol, or a chunk that goes out
while none is missing. -/
theorem Paced.getSymbol_cases (h : e.Paced ratio) (hratio : Regular ratio) {symbol : Symbol}
    (hcall : getSymbol ratio e = .ok symbol e') : e'.Paced ratio ∧
    ((e.encoder.emitted.length <
          Pacing.quota (numerator ratio) ratio.den e.encoder.added.length ∧
        e'.pending = e.pending ∧ e'.encoder.added = e.encoder.added ∧
        e'.encoder.emitted = e.encoder.emitted ++ [symbol.1] ∧ symbol.2 = packetIndexFec) ∨
      (Pacing.quota (numerator ratio) ratio.den e.encoder.added.length ≤
          e.encoder.emitted.length ∧
        e.pending = symbol.1 :: e'.pending ∧
        e'.encoder.added = e.encoder.added ++ [symbol.1] ∧
        e'.encoder.emitted = e.encoder.emitted)) := by
  rcases getSymbol_ok_iff.mp hcall with ⟨hfec, x, hx, rfl⟩ | ⟨hfec, rest, x, hpending, hx, rfl⟩
  · have hmarks := (h.isNextSymbolFec_iff hratio).mp hfec
    obtain ⟨-, rfl, rfl⟩ := StreamFecEncoder.generateFecSymbol_ok_iff.mp hx
    exact ⟨h.recovered hmarks rfl rfl, Or.inl ⟨hmarks, rfl, rfl, rfl, rfl⟩⟩
  · have hquota : ¬_ := fun hmarks => by
      have := (h.isNextSymbolFec_iff hratio).mpr hmarks
      rw [hfec] at this
      cases this
    obtain ⟨-, -, hadd⟩ := StreamFecEncoder.addChunk_ok_iff.mp hx
    have hadded : x.added = e.encoder.added ++ [symbol.1] := by rw [hadd]
    have hemitted : x.emitted = e.encoder.emitted := by rw [hadd]
    refine ⟨h.added (not_lt.mp hquota) hadded hemitted symbol.2,
      Or.inr ⟨not_lt.mp hquota, ?_, hadded, hemitted⟩⟩
    show e.pending = symbol.1 :: e.pending.tail
    rw [hpending]
    rfl

/-- There is nothing left once every chunk is out and no recovery symbol is missing. -/
theorem Paced.hasData_eq_false_iff (h : e.Paced ratio) (hratio : Regular ratio) :
    e.hasData ratio = false ↔ e.pending = [] ∧ e.encoder.emitted.length =
      Pacing.quota (numerator ratio) ratio.den e.encoder.added.length := by
  have hnext := h.isNextSymbolFec_iff hratio
  have hupper := h.upper
  unfold hasData
  cases hfec : e.isNextSymbolFec ratio with
  | true =>
      have := hnext.mp hfec
      simp
      omega
  | false =>
      have hquota : ¬_ := fun hmarks => Bool.false_ne_true (hfec.symm.trans (hnext.mpr hmarks))
      have heq : e.encoder.emitted.length =
          Pacing.quota (numerator ratio) ratio.den e.encoder.added.length := by omega
      simp [heq]

/-! ## The loop ends -/

/-- The symbols that are left to get. -/
def remaining (ratio : Rat) (e : ContinuousStreamEncoder S) : Nat :=
  e.pending.length + (Pacing.quota (numerator ratio) ratio.den
    (e.encoder.added.length + e.pending.length) - e.encoder.emitted.length)

theorem Paced.remaining_getSymbol (h : e.Paced ratio) (hratio : Regular ratio) {symbol : Symbol}
    (hcall : getSymbol ratio e = .ok symbol e') : e'.remaining ratio < e.remaining ratio := by
  unfold remaining
  obtain ⟨-, ⟨hmarks, hpending, hadded, hemitted, -⟩ | ⟨hquota, hpending, hadded, hemitted⟩⟩ :=
    h.getSymbol_cases hratio hcall
  · have hmono := Pacing.quota_mono (f := numerator ratio) (d := ratio.den)
      (Nat.le_add_right e.encoder.added.length e.pending.length)
    rw [hpending, hadded, hemitted, List.length_append, List.length_singleton]
    omega
  · have hsum : e.encoder.added.length + 1 + e'.pending.length =
        e.encoder.added.length + (e'.pending.length + 1) := by omega
    rw [hpending, hadded, hemitted, List.length_append, List.length_singleton, List.length_cons,
      hsum]
    omega

/-- The loop ends: it returns, or `get_symbol` throws. -/
theorem Paced.drainSymbols_ends (hratio : Regular ratio) : ∀ (rounds : Nat)
    {e : ContinuousStreamEncoder S}, e.Paced ratio → e.remaining ratio < rounds →
    ∀ fault, Method.thrown (drainSymbols ratio rounds e) = some fault →
      ∃ expr, fault = .enforce expr := by
  intro rounds
  induction rounds with
  | zero => intro e _ hrounds; exact absurd hrounds (Nat.not_lt_zero _)
  | succ rounds ih =>
      intro e he hrounds fault hthrown
      rw [drainSymbols, Method.bind_of_ok (Method.get_apply e)] at hthrown
      cases hdata : e.hasData ratio with
      | false =>
          rw [hdata] at hthrown
          cases hthrown
      | true =>
          rw [hdata, if_pos rfl, Method.bind_apply] at hthrown
          cases hcall : getSymbol ratio e with
          | error fault' e₁ =>
              rw [hcall] at hthrown
              rcases getSymbol_outcome ratio e with ⟨symbol, e₂, hok⟩ | ⟨expr, e₂, herror⟩
              · rw [hcall] at hok
                cases hok
              · rw [hcall] at herror
                cases herror
                cases hthrown
                exact ⟨expr, rfl⟩
          | ok symbol e₁ =>
              rw [hcall] at hthrown
              have hless := he.remaining_getSymbol hratio hcall
              have hpaced := (he.getSymbol_cases hratio hcall).1
              apply ih hpaced (by omega) fault
              dsimp only at hthrown
              rw [Method.bind_apply] at hthrown
              cases hrest : drainSymbols ratio rounds e₁ with
              | error fault' e₂ =>
                  rw [hrest] at hthrown
                  exact hthrown
              | ok rest e₂ =>
                  rw [hrest] at hthrown
                  cases hthrown

end ContinuousStreamEncoder

end FecRelay
