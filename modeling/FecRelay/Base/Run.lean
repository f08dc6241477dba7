import Mathlib.Tactic

/-!
# Labelled runs and their invariants

A component is driven by events; `step s e t` says that event `e` may take state
`s` to state `t`. A run is a finite sequence of such steps. The rules below turn
a fact about one step into a fact about every state a run can reach.
-/

namespace FecRelay.Base

/-- `Run step s es t`: the events `es`, in this order, may take `s` to `t`. -/
inductive Run {σ ev : Type} (step : σ → ev → σ → Prop) : σ → List ev → σ → Prop
  | nil (s : σ) : Run step s [] s
  | snoc {s t u : σ} {es : List ev} {e : ev} :
      Run step s es t → step t e u → Run step s (es ++ [e]) u

namespace Run

variable {σ ev : Type} {step : σ → ev → σ → Prop}

theorem nil_iff {s t : σ} : Run step s [] t ↔ t = s := by
  constructor
  · intro h
    generalize hes : ([] : List ev) = es at h
    cases h with
    | nil => rfl
    | snoc _ _ => simp at hes
  · rintro rfl
    exact .nil _

/-- The last event of a non-empty run is its last step. -/
theorem snoc_iff {s u : σ} {es : List ev} {e : ev} :
    Run step s (es ++ [e]) u ↔ ∃ t, Run step s es t ∧ step t e u := by
  constructor
  · intro h
    generalize hes : es ++ [e] = es' at h
    cases h with
    | nil => simp at hes
    | snoc hrun hstep =>
        obtain ⟨rfl, hlast⟩ := List.append_inj' hes rfl
        obtain rfl : e = _ := by simpa using hlast
        exact ⟨_, hrun, hstep⟩
  · rintro ⟨t, hrun, hstep⟩
    exact .snoc hrun hstep

theorem single {s t : σ} {e : ev} (h : step s e t) : Run step s [e] t := by
  have hrun : Run step s ([] ++ [e]) t := .snoc (.nil s) h
  simpa using hrun

theorem append {s t u : σ} {es es' : List ev} (h : Run step s es t)
    (h' : Run step t es' u) : Run step s (es ++ es') u := by
  induction h' with
  | nil => simpa using h
  | snoc _ hstep ih =>
      rw [← List.append_assoc]
      exact .snoc ih hstep

theorem cons {s t u : σ} {e : ev} {es : List ev} (h : step s e t)
    (h' : Run step t es u) : Run step s (e :: es) u :=
  append (single h) h'

/-- A run over two blocks of events passes through the state between them. -/
theorem of_append {s u : σ} {es es' : List ev} (h : Run step s (es ++ es') u) :
    ∃ t, Run step s es t ∧ Run step t es' u := by
  induction es' using List.reverseRecOn generalizing u with
  | nil => exact ⟨u, by simpa using h, .nil u⟩
  | append_singleton es' e ih =>
      rw [← List.append_assoc] at h
      obtain ⟨v, hrun, hstep⟩ := snoc_iff.mp h
      obtain ⟨t, hfirst, hrest⟩ := ih hrun
      exact ⟨t, hfirst, .snoc hrest hstep⟩

theorem cons_iff {s u : σ} {e : ev} {es : List ev} :
    Run step s (e :: es) u ↔ ∃ t, step s e t ∧ Run step t es u := by
  constructor
  · intro h
    have hsplit : Run step s ([e] ++ es) u := h
    obtain ⟨t, hfirst, hrest⟩ := of_append hsplit
    have hlast : Run step s ([] ++ [e]) t := hfirst
    obtain ⟨s', hnil, hstep⟩ := snoc_iff.mp hlast
    rw [nil_iff.mp hnil] at hstep
    exact ⟨t, hstep, hrest⟩
  · rintro ⟨t, hstep, hrun⟩
    exact cons hstep hrun

/-- The same events take a state to one state only, if every step does. -/
theorem deterministic (hstep : ∀ ⦃s e t t'⦄, step s e t → step s e t' → t = t') {s t t' : σ}
    {es : List ev} (h : Run step s es t) (h' : Run step s es t') : t = t' := by
  induction h generalizing t' with
  | nil => exact (nil_iff.mp h').symm
  | snoc _ hlast ih =>
      obtain ⟨u, hrun, hlast'⟩ := snoc_iff.mp h'
      obtain rfl := ih hrun
      exact hstep hlast hlast'

/-- Run rule: what every step preserves holds in every state a run reaches. -/
theorem invariant {I : σ → Prop} (preserved : ∀ s e t, I s → step s e t → I t)
    {s t : σ} {es : List ev} (h : Run step s es t) (hs : I s) : I t := by
  induction h with
  | nil => exact hs
  | snoc _ hstep ih => exact preserved _ _ _ ih hstep

/-- Run rule with a condition on the events of the run. -/
theorem invariant_of_events {I : σ → Prop} {C : ev → Prop}
    (preserved : ∀ s e t, I s → C e → step s e t → I t)
    {s t : σ} {es : List ev} (h : Run step s es t) (hC : ∀ e ∈ es, C e) (hs : I s) : I t := by
  induction h with
  | nil => exact hs
  | snoc _ hstep ih =>
      refine preserved _ _ _ (ih fun e he => hC e (by simp [he])) (hC _ (by simp)) hstep

theorem mono {step' : σ → ev → σ → Prop} (hstep : ∀ s e t, step s e t → step' s e t) {s t : σ}
    {es : List ev} (h : Run step s es t) : Run step' s es t := by
  induction h with
  | nil => exact .nil _
  | snoc _ hlast ih => exact .snoc ih (hstep _ _ _ hlast)

/-- Run rule for what a step keeps exactly if it meets the guard `G`: it holds after a run
exactly if every step of the run met the guard. The final state has to meet `J`, which then
holds all along. -/
theorem guarded_iff {J P : σ → Prop} {G : σ → ev → Prop} {s₀ : σ}
    (exactly : ∀ ⦃es s e t⦄, Run step s₀ es s → step s e t → J t → J s ∧ (P t ↔ P s ∧ G s e))
    (hs₀ : P s₀) {t : σ} {es : List ev} (h : Run step s₀ es t) (ht : J t) :
    P t ↔ Run (fun s e t => step s e t ∧ G s e) s₀ es t := by
  constructor
  · intro hP
    induction h with
    | nil => exact .nil _
    | snoc hrun hlast ih =>
        obtain ⟨hJ, hiff⟩ := exactly hrun hlast ht
        obtain ⟨hP, hG⟩ := hiff.mp hP
        exact .snoc (ih hJ hP) ⟨hlast, hG⟩
  · intro hguarded
    clear h
    induction hguarded with
    | nil => exact hs₀
    | snoc hrun hlast ih =>
        obtain ⟨hJ, hiff⟩ := exactly (hrun.mono fun _ _ _ h => h.1) hlast.1 ht
        exact hiff.mpr ⟨ih hJ, hlast.2⟩

/-- Run rule for what a step from such a state leads to exactly if it meets the guard `G`: it
holds in every state of a run exactly if every step of the run met the guard. -/
theorem always_iff {I P : σ → Prop} {G : σ → ev → Prop} {s₀ : σ}
    (preserved : ∀ s e t, I s → step s e t → I t)
    (exactly : ∀ s e t, I s → P s → step s e t → (P t ↔ G s e)) (hI : I s₀) (hP : P s₀) {t : σ}
    {es : List ev} :
    Run (fun s e t => step s e t ∧ P t) s₀ es t ↔ Run (fun s e t => step s e t ∧ G s e) s₀ es t := by
  constructor
  · intro h
    have hkept : (I t ∧ P t) ∧ Run (fun s e t => step s e t ∧ G s e) s₀ es t := by
      induction h with
      | nil => exact ⟨⟨hI, hP⟩, .nil _⟩
      | snoc _ hlast ih =>
          obtain ⟨⟨hIs, hPs⟩, hrun⟩ := ih
          have hG := (exactly _ _ _ hIs hPs hlast.1).mp hlast.2
          exact ⟨⟨preserved _ _ _ hIs hlast.1, hlast.2⟩, .snoc hrun ⟨hlast.1, hG⟩⟩
    exact hkept.2
  · intro h
    have hkept : (I t ∧ P t) ∧ Run (fun s e t => step s e t ∧ P t) s₀ es t := by
      induction h with
      | nil => exact ⟨⟨hI, hP⟩, .nil _⟩
      | snoc _ hlast ih =>
          obtain ⟨⟨hIs, hPs⟩, hrun⟩ := ih
          have hPt := (exactly _ _ _ hIs hPs hlast.1).mpr hlast.2
          exact ⟨⟨preserved _ _ _ hIs hlast.1, hPt⟩, .snoc hrun ⟨hlast.1, hPt⟩⟩
    exact hkept.2

/-- Simulation rule: where every step under an invariant is a step of another system,
a run is a run of that system. -/
theorem simulate {τ ev' : Type} {step' : τ → ev' → τ → Prop} (f : σ → τ) (g : ev → ev')
    {I : σ → Prop} {C : ev → Prop}
    (simulates : ∀ s e t, I s → C e → step s e t → I t ∧ step' (f s) (g e) (f t))
    {s t : σ} {es : List ev} (h : Run step s es t) (hC : ∀ e ∈ es, C e) (hs : I s) :
    I t ∧ Run step' (f s) (es.map g) (f t) := by
  induction h with
  | nil => exact ⟨hs, .nil _⟩
  | snoc _ hstep ih =>
      obtain ⟨hI, hrun⟩ := ih fun e he => hC e (by simp [he])
      obtain ⟨hI', hstep'⟩ := simulates _ _ _ hI (hC _ (by simp)) hstep
      rw [List.map_append]
      exact ⟨hI', .snoc hrun hstep'⟩

/-! ## Replay -/

/-- The events happen one after the other, and each passes a check where it happens. -/
def replays (next : σ → ev → σ) (check : σ → ev → Bool) : σ → List ev → Bool
  | _, [] => true
  | s, e :: es => check s e && replays next check (next s e) es

/-- Replay rule: if an event that passes the check is a step, events that replay are a run. -/
theorem of_replays {next : σ → ev → σ} {check : σ → ev → Bool}
    (hstep : ∀ s e, check s e = true → step s e (next s e)) {s : σ} {es : List ev}
    (h : replays next check s es = true) : Run step s es (es.foldl next s) := by
  induction es generalizing s with
  | nil => exact .nil s
  | cons e es ih =>
      obtain ⟨hfirst, hrest⟩ := Bool.and_eq_true_iff.mp h
      exact cons (hstep s e hfirst) (ih hrest)

end Run

/-- Frame rule: where one member of a family changes and no other does, what holds of all of
them holds after the change exactly if it did before and the change does what it must. -/
theorem forall_iff_of_frame {ι α : Type} {f g : ι → α} {P : α → Prop} {q : Prop} {i : ι}
    (hframe : ∀ j, j ≠ i → g j = f j) (hself : P (g i) ↔ P (f i) ∧ q) :
    (∀ j, P (g j)) ↔ (∀ j, P (f j)) ∧ q := by
  constructor
  · intro h
    obtain ⟨hold, hnew⟩ := hself.mp (h i)
    refine ⟨fun j => ?_, hnew⟩
    by_cases hj : j = i
    · rw [hj]
      exact hold
    · rw [← hframe j hj]
      exact h j
  · rintro ⟨h, hnew⟩ j
    by_cases hj : j = i
    · rw [hj]
      exact hself.mpr ⟨h i, hnew⟩
    · rw [hframe j hj]
      exact h j

end FecRelay.Base
