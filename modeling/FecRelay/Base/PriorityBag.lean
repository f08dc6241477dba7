import Mathlib.Tactic

/-!
# Bags with a greatest element on top

What a priority queue promises its user, and nothing about its memory layout: a
bag of elements and a comparison `lt`, from which one may remove an element that
no other element of the bag exceeds. Among elements that do not exceed one
another the queue may pick any; `top` takes the one that was added first.
-/

namespace FecRelay.Base.PriorityBag

variable {α : Type}

/-- A strict weak order, the contract of a comparison object. -/
structure StrictWeak (lt : α → α → Bool) : Prop where
  irrefl : ∀ x, lt x x = false
  trans : ∀ x y z, lt x y = true → lt y z = true → lt x z = true
  negTrans : ∀ x y z, lt x y = false → lt y z = false → lt x z = false

/-- The greater of the best element so far and the next one. -/
def better (lt : α → α → Bool) (best next : α) : α := if lt best next then next else best

/-- The first of the greatest elements. -/
def top (lt : α → α → Bool) : List α → Option α
  | [] => none
  | x :: xs => some (xs.foldl (better lt) x)

@[simp] theorem top_nil (lt : α → α → Bool) : top lt ([] : List α) = none := rfl

theorem top_eq_none_iff {lt : α → α → Bool} {xs : List α} : top lt xs = none ↔ xs = [] := by
  cases xs <;> simp [top]

theorem top_isSome {lt : α → α → Bool} {xs : List α} (h : xs ≠ []) :
    ∃ m, top lt xs = some m := by
  cases xs with
  | nil => exact absurd rfl h
  | cons x xs => exact ⟨_, rfl⟩

private theorem foldl_better_mem (lt : α → α → Bool) :
    ∀ (xs : List α) (x : α), xs.foldl (better lt) x ∈ x :: xs := by
  intro xs
  induction xs with
  | nil => intro x; simp
  | cons y ys ih =>
      intro x
      have hmem := ih (better lt x y)
      rw [List.foldl_cons]
      rcases List.mem_cons.mp hmem with heq | hys
      · rw [heq]
        unfold better
        split <;> simp
      · simp [hys]

theorem top_mem {lt : α → α → Bool} {xs : List α} {m : α} (h : top lt xs = some m) :
    m ∈ xs := by
  cases xs with
  | nil => simp at h
  | cons x xs =>
      simp only [top, Option.some.injEq] at h
      exact h ▸ foldl_better_mem lt xs x

private theorem foldl_better_maximal {lt : α → α → Bool} (order : StrictWeak lt) :
    ∀ (xs : List α) (x : α),
      ∀ y ∈ x :: xs, lt (xs.foldl (better lt) x) y = false := by
  intro xs
  induction xs with
  | nil => intro x y hy; simp at hy; simp [hy, order.irrefl]
  | cons z zs ih =>
      intro x y hy
      rw [List.foldl_cons]
      -- the running best after `z` is exceeded by neither `x` nor `z`
      have hbest : lt (better lt x z) x = false ∧ lt (better lt x z) z = false := by
        unfold better
        cases hxz : lt x z with
        | true =>
            refine ⟨?_, by simp [order.irrefl]⟩
            simp only [if_true]
            by_contra hzx
            have := order.trans x z x hxz (by simpa using hzx)
            simp [order.irrefl] at this
        | false => simp [order.irrefl, hxz]
      have hle := ih (better lt x z) (better lt x z) (List.mem_cons_self ..)
      rcases List.mem_cons.mp hy with rfl | hy
      · exact order.negTrans _ _ _ hle hbest.1
      rcases List.mem_cons.mp hy with rfl | hy
      · exact order.negTrans _ _ _ hle hbest.2
      · exact ih _ y (List.mem_cons_of_mem _ hy)

/-- No element of the bag exceeds the top. -/
theorem top_maximal {lt : α → α → Bool} (order : StrictWeak lt) {xs : List α} {m : α}
    (h : top lt xs = some m) : ∀ y ∈ xs, lt m y = false := by
  cases xs with
  | nil => simp at h
  | cons x xs =>
      simp only [top, Option.some.injEq] at h
      intro y hy
      exact h ▸ foldl_better_maximal order xs x y hy

/-- Removing the top leaves the other elements of the bag. -/
theorem perm_top_cons_erase [BEq α] [LawfulBEq α] {lt : α → α → Bool} {xs : List α} {m : α}
    (h : top lt xs = some m) : (m :: xs.erase m).Perm xs :=
  (List.perm_cons_erase (top_mem h)).symm

theorem length_erase_top [BEq α] [LawfulBEq α] {lt : α → α → Bool} {xs : List α} {m : α}
    (h : top lt xs = some m) : (xs.erase m).length + 1 = xs.length := by
  have := (perm_top_cons_erase h).length_eq
  simpa using this

end FecRelay.Base.PriorityBag
