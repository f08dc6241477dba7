import FecRelay.Base.OrderedMap
import FecRelay.Base.Run

/-!
# Two runs side by side

An observer sees some events of a run and some part of the states: two states that look the
same to it are related. If related states stay related through events that look the same, and
an event that the observer does not see keeps a state looking as it did, then what the
observer has seen determines how the state looks to it, however the events it does not see
were put in between. The rules for calls build the first condition from the parts of a call.
-/

namespace FecRelay.Base

/-! ## Runs -/

/-- The observer sees `obs e` of an event `e`, and `R` relates the states that look the
same to it. -/
structure Unwinding {σ ev ob : Type} (step : σ → ev → σ → Prop) (R : σ → σ → Prop)
    (obs : ev → Option ob) : Prop where
  equivalence : Equivalence R
  /-- What is not seen changes nothing that is. -/
  silent : ∀ ⦃s e t⦄, step s e t → obs e = none → R s t
  /-- What looks the same has an effect that looks the same. -/
  consistent : ∀ ⦃s e t s' e' t' o⦄, step s e t → step s' e' t' → obs e = some o →
    obs e' = some o → R s s' → R t t'

namespace Unwinding

variable {σ ev ob : Type} {step : σ → ev → σ → Prop} {R : σ → σ → Prop} {obs : ev → Option ob}

/-- A run of which nothing is seen. -/
theorem run_silent (h : Unwinding step R obs) {s t : σ} {es : List ev} (hrun : Run step s es t)
    (hseen : es.filterMap obs = []) : R s t := by
  induction hrun with
  | nil => exact h.equivalence.refl _
  | @snoc t u es e _ hstep ih =>
      rw [List.filterMap_append, List.append_eq_nil_iff] at hseen
      have he : obs e = none := by simpa using hseen.2
      exact h.equivalence.trans (ih hseen.1) (h.silent hstep he)

/-- The last event of a run that was seen, and the runs before and after it. -/
theorem run_seen (h : Unwinding step R obs) {s t : σ} {es : List ev} {os : List ob} {o : ob}
    (hrun : Run step s es t) (hseen : es.filterMap obs = os ++ [o]) :
    ∃ es₀ s₀ e s₁, Run step s es₀ s₀ ∧ es₀.filterMap obs = os ∧ step s₀ e s₁ ∧
      obs e = some o ∧ R s₁ t := by
  induction hrun with
  | nil => simp at hseen
  | @snoc t u es e hbefore hstep ih =>
      rw [List.filterMap_append] at hseen
      cases he : obs e with
      | none =>
          simp only [List.filterMap_cons, he, List.filterMap_nil, List.append_nil] at hseen
          obtain ⟨es₀, s₀, e₀, s₁, hrun₀, hseen₀, hstep₀, he₀, hrest⟩ := ih hseen
          exact ⟨es₀, s₀, e₀, s₁, hrun₀, hseen₀, hstep₀, he₀,
            h.equivalence.trans hrest (h.silent hstep he)⟩
      | some o' =>
          simp only [List.filterMap_cons, he, List.filterMap_nil] at hseen
          obtain ⟨hos, ho⟩ := List.append_inj' hseen rfl
          cases ho
          exact ⟨es, t, e, u, hbefore, hos, hstep, he, h.equivalence.refl u⟩

/-- **What an observer has seen determines how the state looks to it.** -/
theorem run (h : Unwinding step R obs) {s t s' t' : σ} {es es' : List ev}
    (hrun : Run step s es t) (hrun' : Run step s' es' t') (hs : R s s')
    (hseen : es.filterMap obs = es'.filterMap obs) : R t t' := by
  -- on what was seen, from its last event back
  generalize hos : es'.filterMap obs = os at hseen
  induction os using List.reverseRecOn generalizing es es' t t' with
  | nil =>
      have ht := h.equivalence.symm (h.run_silent hrun hseen)
      exact h.equivalence.trans (h.equivalence.trans ht hs) (h.run_silent hrun' hos)
  | append_singleton os o ih =>
      obtain ⟨es₀, s₀, e, s₁, hrun₀, hseen₀, hstep, he, ht⟩ := h.run_seen hrun hseen
      obtain ⟨es₀', s₀', e', s₁', hrun₀', hseen₀', hstep', he', ht'⟩ := h.run_seen hrun' hos
      have hbefore : R s₀ s₀' := ih hrun₀ hrun₀' hseen₀' hseen₀
      have hafter := h.consistent hstep hstep' he he' hbefore
      exact h.equivalence.trans (h.equivalence.symm ht) (h.equivalence.trans hafter ht')

end Unwinding

/-! ## Calls -/

namespace Method

variable {ε σ τ α β : Type}

/-- Two calls that return, from states in the relation `P`, return the same and leave states
in the relation `R`. -/
def Related (P R : σ → σ → Prop) (m m' : Method ε σ α) : Prop :=
  ∀ ⦃s s' t t' a a'⦄, P s s' → m s = .ok a t → m' s' = .ok a' t' → a = a' ∧ R t t'

namespace Related

variable {P Q R : σ → σ → Prop}

/-- Equal states stay equal. -/
theorem of_eq (m : Method ε σ α) : Related Eq Eq m m := by
  rintro s s' t t' a a' rfl h h'
  rw [h] at h'
  cases h'
  exact ⟨rfl, rfl⟩

theorem bind {m m' : Method ε σ α} {f f' : α → Method ε σ β} (hm : Related P Q m m')
    (hf : ∀ a, Related Q R (f a) (f' a)) : Related P R (m >>= f) (m' >>= f') := by
  intro s s' t t' b b' hs h h'
  obtain ⟨a, u, hfirst, hrest⟩ := bind_ok_iff.mp h
  obtain ⟨a', u', hfirst', hrest'⟩ := bind_ok_iff.mp h'
  obtain ⟨rfl, hu⟩ := hm hs hfirst hfirst'
  exact hf a hu hrest hrest'

theorem pure (a : α) : Related R R (pure a : Method ε σ α) (pure a) := by
  intro s s' t t' b b' hs h h'
  cases h
  cases h'
  exact ⟨rfl, hs⟩

theorem lift (x : Except ε α) :
    Related R R (Method.lift x : Method ε σ α) (Method.lift x) := by
  intro s s' t t' b b' hs h h'
  obtain ⟨hx, rfl⟩ := lift_ok_iff.mp h
  obtain ⟨hx', rfl⟩ := lift_ok_iff.mp h'
  rw [hx] at hx'
  cases hx'
  exact ⟨rfl, hs⟩

/-- What follows a computation may use what it returned. -/
theorem lift_bind {x : Except ε α} {f f' : α → Method ε σ β}
    (hf : ∀ a, x = .ok a → Related P R (f a) (f' a)) :
    Related P R (Method.lift x >>= f) (Method.lift x >>= f') := by
  intro s s' t t' b b' hs h h'
  obtain ⟨a, hx, hrest⟩ := lift_bind_ok_iff.mp h
  obtain ⟨a', hx', hrest'⟩ := lift_bind_ok_iff.mp h'
  rw [hx] at hx'
  cases hx'
  exact hf a hx hs hrest hrest'

theorem modify {f f' : σ → σ} (hf : ∀ ⦃s s'⦄, P s s' → R (f s) (f' s')) :
    Related P R (modify f : Method ε σ PUnit) (modify f') := by
  intro s s' t t' b b' hs h h'
  cases h
  cases h'
  exact ⟨rfl, hf hs⟩

theorem ite {c : Prop} [Decidable c] {m m' w w' : Method ε σ α} (hm : Related P R m m')
    (hw : Related P R w w') : Related P R (if c then m else w) (if c then m' else w') := by
  split
  · exact hm
  · exact hw

/-- Calls on parts of two states that are related if the states are. -/
theorem zoom {V : τ → τ → Prop} {get : σ → τ} {set : τ → σ → σ} {m m' : Method ε τ α}
    (hm : Related V V m m') (hget : ∀ ⦃s s'⦄, R s s' → V (get s) (get s'))
    (hset : ∀ ⦃s s' x x'⦄, R s s' → V x x' → R (set x s) (set x' s')) :
    Related R R (Method.zoom get set m) (Method.zoom get set m') := by
  intro s s' t t' a a' hs h h'
  obtain ⟨x, hx, rfl⟩ := zoom_ok_iff.mp h
  obtain ⟨x', hx', rfl⟩ := zoom_ok_iff.mp h'
  obtain ⟨rfl, hV⟩ := hm (hget hs) hx hx'
  exact ⟨rfl, hset hs hV⟩

/-- A call on a part that is the same in both states. -/
theorem zoom_eq {get : σ → τ} {set : τ → σ → σ} {m m' : Method ε τ α}
    (hm : Related Eq Eq m m') (hget : ∀ ⦃s s'⦄, R s s' → get s = get s')
    (hset : ∀ ⦃s s'⦄ x, R s s' → R (set x s) (set x s')) :
    Related R R (Method.zoom get set m) (Method.zoom get set m') := by
  apply zoom hm hget
  rintro s s' x x' hs rfl
  exact hset x hs

/-- A call that keeps equal parts equal keeps equal states equal. -/
theorem zoom_of_eq {get : σ → τ} {set : τ → σ → σ} {m m' : Method ε τ α}
    (hm : Related Eq Eq m m') : Related Eq Eq (Method.zoom get set m) (Method.zoom get set m') := by
  apply zoom_eq hm
  · rintro s s' rfl
    rfl
  · rintro s s' x rfl
    rfl

end Related

/-- A call that returns leaves a state that is related to the one it found. -/
def Keeps (R : σ → σ → Prop) (m : Method ε σ α) : Prop := ∀ ⦃s t a⦄, m s = .ok a t → R s t

namespace Keeps

variable {R : σ → σ → Prop}

/-- What follows a call may use what it returned. -/
theorem bind_of (htrans : ∀ ⦃s t u⦄, R s t → R t u → R s u) {m : Method ε σ α}
    {f : α → Method ε σ β} (hm : Keeps R m) (hf : ∀ a s t, m s = .ok a t → Keeps R (f a)) :
    Keeps R (m >>= f) := by
  intro s u b h
  obtain ⟨a, t, hfirst, hrest⟩ := bind_ok_iff.mp h
  exact htrans (hm hfirst) (hf a s t hfirst hrest)

theorem bind (htrans : ∀ ⦃s t u⦄, R s t → R t u → R s u) {m : Method ε σ α}
    {f : α → Method ε σ β} (hm : Keeps R m) (hf : ∀ a, Keeps R (f a)) : Keeps R (m >>= f) :=
  hm.bind_of htrans fun a _ _ _ => hf a

theorem pure (hrefl : ∀ s, R s s) (a : α) : Keeps R (pure a : Method ε σ α) := by
  intro s t b h
  cases h
  exact hrefl s

theorem throw (e : ε) : Keeps R (throw e : Method ε σ α) := by
  intro s t a h
  cases h

theorem get (hrefl : ∀ s, R s s) : Keeps R (get : Method ε σ σ) := by
  intro s t a h
  cases h
  exact hrefl s

theorem modify {f : σ → σ} (hf : ∀ s, R s (f s)) : Keeps R (modify f : Method ε σ PUnit) := by
  intro s t a h
  cases h
  exact hf s

theorem ite {c : Prop} [Decidable c] {m m' : Method ε σ α} (hm : Keeps R m) (hm' : Keeps R m') :
    Keeps R (if c then m else m') := by
  split
  · exact hm
  · exact hm'

theorem lift (hrefl : ∀ s, R s s) (x : Except ε α) :
    Keeps R (Method.lift x : Method ε σ α) := by
  intro s t b h
  obtain ⟨-, rfl⟩ := lift_ok_iff.mp h
  exact hrefl s

theorem zoom {get : σ → τ} {set : τ → σ → σ} (hset : ∀ s x, R s (set x s))
    (m : Method ε τ α) : Keeps R (Method.zoom get set m) := by
  intro s t a h
  obtain ⟨x, -, rfl⟩ := zoom_ok_iff.mp h
  exact hset s x

end Keeps

end Method

end FecRelay.Base
