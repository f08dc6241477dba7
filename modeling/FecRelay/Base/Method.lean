import Mathlib.Tactic

/-!
# Methods that may throw

A member function of an imperative object is a state transformer that either
returns a value or throws, and a throw leaves behind whatever the call had
already written. `EStateM` has exactly this reading: both of its outcomes carry
a state. This module gives the inversion and composition rules that let a caller
reason from what a call returned, without unfolding the callee.
-/

namespace FecRelay.Base

/-- A call on an object of state `σ`: it returns an `α` or throws an `ε`, and
the object is left in some state either way. -/
abbrev Method (ε σ α : Type) := EStateM ε σ α

namespace Method

variable {ε σ τ α β : Type}

/-- The state a finished call leaves, whether it returned or threw. -/
def after : EStateM.Result ε σ α → σ
  | .ok _ s => s
  | .error _ s => s

/-- The value of a call that returned. -/
def returned : EStateM.Result ε σ α → Option α
  | .ok a _ => some a
  | .error _ _ => none

/-- The exception of a call that threw. -/
def thrown : EStateM.Result ε σ α → Option ε
  | .ok _ _ => none
  | .error e _ => some e

@[simp] theorem after_ok (a : α) (s : σ) :
    after (.ok a s : EStateM.Result ε σ α) = s := rfl

@[simp] theorem after_error (e : ε) (s : σ) :
    after (.error e s : EStateM.Result ε σ α) = s := rfl

@[simp] theorem returned_ok (a : α) (s : σ) :
    returned (.ok a s : EStateM.Result ε σ α) = some a := rfl

@[simp] theorem returned_error (e : ε) (s : σ) :
    returned (.error e s : EStateM.Result ε σ α) = none := rfl

@[simp] theorem thrown_ok (a : α) (s : σ) :
    thrown (.ok a s : EStateM.Result ε σ α) = none := rfl

@[simp] theorem thrown_error (e : ε) (s : σ) :
    thrown (.error e s : EStateM.Result ε σ α) = some e := rfl

theorem eq_ok_of_returned {r : EStateM.Result ε σ α} {a : α} (h : returned r = some a) :
    r = .ok a (after r) := by
  cases r with
  | ok b s =>
      cases h
      rfl
  | error e s => cases h

/-- A pure computation that may throw, as a call that leaves the object alone. -/
def lift (x : Except ε α) : Method ε σ α := fun s =>
  match x with
  | .ok a => .ok a s
  | .error e => .error e s

/-- A call on a part of the object. The part is written back on both outcomes. -/
def zoom (get : σ → τ) (set : τ → σ → σ) (m : Method ε τ α) : Method ε σ α := fun s =>
  match m (get s) with
  | .ok a t => .ok a (set t s)
  | .error e t => .error e (set t s)

/-! ## What a call does, step by step -/

theorem bind_apply (x : Method ε σ α) (f : α → Method ε σ β) (s : σ) :
    (x >>= f) s = match x s with
      | .ok a s' => f a s'
      | .error e s' => .error e s' := rfl

@[simp] theorem pure_apply (a : α) (s : σ) : (pure a : Method ε σ α) s = .ok a s := rfl

@[simp] theorem throw_apply (e : ε) (s : σ) :
    (throw e : Method ε σ α) s = .error e s := rfl

@[simp] theorem get_apply (s : σ) : (get : Method ε σ σ) s = .ok s s := rfl

@[simp] theorem set_apply (s t : σ) : (set t : Method ε σ PUnit) s = .ok ⟨⟩ t := rfl

@[simp] theorem modify_apply (f : σ → σ) (s : σ) :
    (modify f : Method ε σ PUnit) s = .ok ⟨⟩ (f s) := rfl

@[simp] theorem lift_ok (a : α) (s : σ) :
    (lift (.ok a) : Method ε σ α) s = .ok a s := rfl

@[simp] theorem lift_error (e : ε) (s : σ) :
    (lift (.error e) : Method ε σ α) s = .error e s := rfl

/-- A first call that returned hands its state to the second. -/
theorem bind_of_ok {x : Method ε σ α} {f : α → Method ε σ β} {s s' : σ} {a : α}
    (h : x s = .ok a s') : (x >>= f) s = f a s' := by
  rw [bind_apply, h]

/-- A first call that threw ends the sequence. -/
theorem bind_of_error {x : Method ε σ α} {f : α → Method ε σ β} {s s' : σ} {e : ε}
    (h : x s = .error e s') : (x >>= f) s = .error e s' := by
  rw [bind_apply, h]

/-! ## Inversion: from a returned result to the calls that made it -/

theorem bind_ok_iff {x : Method ε σ α} {f : α → Method ε σ β} {s s'' : σ} {b : β} :
    (x >>= f) s = .ok b s'' ↔ ∃ a s', x s = .ok a s' ∧ f a s' = .ok b s'' := by
  rw [bind_apply]
  cases hx : x s with
  | ok a s' =>
      constructor
      · intro h; exact ⟨a, s', rfl, h⟩
      · rintro ⟨a', t, heq, h⟩
        cases heq
        exact h
  | error e s' => simp

theorem bind_error_iff {x : Method ε σ α} {f : α → Method ε σ β} {s s'' : σ} {e : ε} :
    (x >>= f) s = .error e s'' ↔
      x s = .error e s'' ∨ ∃ a s', x s = .ok a s' ∧ f a s' = .error e s'' := by
  rw [bind_apply]
  cases hx : x s with
  | ok a s' => simp
  | error e' s' => simp

theorem pure_ok_iff {a b : α} {s s' : σ} :
    (pure a : Method ε σ α) s = .ok b s' ↔ a = b ∧ s = s' := by
  simp

theorem lift_ok_iff {x : Except ε α} {a : α} {s s' : σ} :
    (lift x : Method ε σ α) s = .ok a s' ↔ x = .ok a ∧ s = s' := by
  cases x <;> simp [lift]

theorem lift_bind_ok_iff {x : Except ε α} {f : α → Method ε σ β} {s s' : σ} {b : β} :
    (lift x >>= f) s = .ok b s' ↔ ∃ a, x = .ok a ∧ f a s = .ok b s' := by
  rw [bind_apply]
  cases x with
  | ok a => simp
  | error e => simp

theorem zoom_ok_iff {get : σ → τ} {set : τ → σ → σ} {m : Method ε τ α}
    {s s' : σ} {a : α} :
    zoom get set m s = .ok a s' ↔ ∃ t, m (get s) = .ok a t ∧ s' = set t s := by
  unfold zoom
  cases hm : m (get s) with
  | ok b t =>
      constructor
      · intro h; cases h; exact ⟨t, rfl, rfl⟩
      · rintro ⟨t', heq, rfl⟩; cases heq; rfl
  | error e t => simp

theorem zoom_of_ok {get : σ → τ} {set : τ → σ → σ} {m : Method ε τ α} {s : σ} {t : τ}
    {a : α} (h : m (get s) = .ok a t) : zoom get set m s = .ok a (set t s) :=
  zoom_ok_iff.mpr ⟨t, h, rfl⟩

theorem zoom_of_error {get : σ → τ} {set : τ → σ → σ} {m : Method ε τ α} {s : σ} {t : τ}
    {e : ε} (h : m (get s) = .error e t) : zoom get set m s = .error e (set t s) := by
  unfold zoom
  rw [h]

/-- A call on a part that throws is the part's. -/
theorem zoom_error {get : σ → τ} {set : τ → σ → σ} {m : Method ε τ α} {s s' : σ} {e : ε}
    (h : zoom get set m s = .error e s') : ∃ t, m (get s) = .error e t ∧ s' = set t s := by
  unfold zoom at h
  cases hm : m (get s) with
  | ok a t =>
      rw [hm] at h
      cases h
  | error e' t =>
      rw [hm] at h
      cases h
      exact ⟨t, rfl, rfl⟩

/-! ## Calls that cannot end with a given exception -/

/-- No outcome of the call is the exception `e`. -/
def NeverThrows (e : ε) (m : Method ε σ α) (s : σ) : Prop := thrown (m s) ≠ some e

theorem NeverThrows.bind {e : ε} {x : Method ε σ α} {f : α → Method ε σ β} {s : σ}
    (hx : NeverThrows e x s) (hf : ∀ a s', x s = .ok a s' → NeverThrows e (f a) s') :
    NeverThrows e (x >>= f) s := by
  unfold NeverThrows
  rw [bind_apply]
  cases hr : x s with
  | ok a s' => exact hf a s' hr
  | error e' s' =>
      have := hx
      unfold NeverThrows at this
      rwa [hr] at this

theorem NeverThrows.zoom {e : ε} {get : σ → τ} {set : τ → σ → σ} {m : Method ε τ α} {s : σ}
    (h : NeverThrows e m (get s)) : NeverThrows e (zoom get set m) s := by
  unfold NeverThrows Method.zoom at *
  cases hm : m (get s) with
  | ok a t => simp
  | error e' t => simpa [hm] using h

/-- A sequence that throws what its first call does not throw got through that call. -/
theorem NeverThrows.bind_error {e : ε} {x : Method ε σ α} {f : α → Method ε σ β} {s s' : σ}
    (hx : NeverThrows e x s) (h : (x >>= f) s = .error e s') :
    ∃ a s₁, x s = .ok a s₁ ∧ f a s₁ = .error e s' := by
  rcases bind_error_iff.mp h with hthrows | hrest
  · unfold NeverThrows at hx
    rw [hthrows] at hx
    exact absurd rfl hx
  · exact hrest

/-! ## What a throw leaves behind -/

/-- If the call throws, what `view` sees of the object is as it was. -/
def Restores (view : σ → τ) (m : Method ε σ α) (s : σ) : Prop :=
  ∀ e s', m s = .error e s' → view s' = view s

theorem restores_iff_of_error {view : σ → τ} {m : Method ε σ α} {s s' : σ} {e : ε}
    (h : m s = .error e s') : Restores view m s ↔ view s' = view s := by
  constructor
  · intro hrestores
    exact hrestores e s' h
  · intro hview e' t ht
    rw [h] at ht
    cases ht
    exact hview

/-! ## Range-for over a container -/

/-- `for(auto& x : xs) body(x)`: the first throw ends the loop. -/
def forEach (body : α → Method ε σ Unit) : List α → Method ε σ Unit
  | [] => pure ()
  | x :: xs => do
      body x
      forEach body xs

/-! ## Calls that avoid an exception in every state -/

/-- The call does not throw `e`, whatever state it finds. -/
def Avoids (e : ε) (m : Method ε σ α) : Prop := ∀ s, NeverThrows e m s

namespace Avoids

variable {e : ε}

theorem bind {x : Method ε σ α} {f : α → Method ε σ β} (hx : Avoids e x)
    (hf : ∀ a, Avoids e (f a)) : Avoids e (x >>= f) :=
  fun s => (hx s).bind fun a s' _ => hf a s'

theorem pure (a : α) : Avoids e (pure a : Method ε σ α) := fun s => by simp [NeverThrows]

theorem get : Avoids e (get : Method ε σ σ) := fun s => by simp [NeverThrows]

theorem set (t : σ) : Avoids e (set t : Method ε σ PUnit) :=
  fun s => by simp [NeverThrows]

theorem modify (f : σ → σ) : Avoids e (modify f : Method ε σ PUnit) := fun s => by
  unfold NeverThrows
  rw [modify_apply]
  simp

theorem throw {e' : ε} (h : e' ≠ e) : Avoids e (throw e' : Method ε σ α) :=
  fun s => by simp [NeverThrows, h]

theorem lift {x : Except ε α} (h : x ≠ .error e) : Avoids e (Method.lift x : Method ε σ α) := by
  intro s
  cases x with
  | ok a => simp [NeverThrows]
  | error e' =>
      have he : e' ≠ e := fun heq => h (congrArg Except.error heq)
      simp [NeverThrows, he]

/-- What follows a computation may use what it returned. -/
theorem lift_bind {x : Except ε α} {f : α → Method ε σ β} (h : x ≠ .error e)
    (hf : ∀ a, x = .ok a → Avoids e (f a)) : Avoids e (Method.lift x >>= f) := by
  intro s
  refine (lift h s).bind fun a s' hx => ?_
  exact hf a (Method.lift_ok_iff.mp hx).1 s'

theorem zoom {get : σ → τ} {set : τ → σ → σ} {m : Method ε τ α} (h : Avoids e m) :
    Avoids e (Method.zoom get set m) :=
  fun s => (h (get s)).zoom

theorem ite {c : Prop} [Decidable c] {x y : Method ε σ α} (hx : Avoids e x) (hy : Avoids e y) :
    Avoids e (if c then x else y) := by
  split
  · exact hx
  · exact hy

theorem forEach {body : α → Method ε σ Unit} (h : ∀ x, Avoids e (body x)) (xs : List α) :
    Avoids e (Method.forEach body xs) := by
  induction xs with
  | nil => exact pure ()
  | cons x xs ih => exact (h x).bind fun _ => ih

end Avoids

end Method

end FecRelay.Base
