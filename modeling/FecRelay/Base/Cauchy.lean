import Mathlib.LinearAlgebra.Lagrange

/-!
# Cauchy systems

The rows `1 / (x - y c)` for distinct `x` and distinct `y c`, of which a square system has
only the trivial solution, also where one of the rows is all ones. A combination of the
columns is a fraction, whose numerator has as many roots as there are rows, and a degree that
is too small for that.
-/

namespace FecRelay.Base.Cauchy

open Finset Polynomial

variable {F ι κ : Type} [Field F] [DecidableEq ι] {s : Finset ι} {y z : ι → F}

/-- The numerator of the combination `∑ z c / (X - y c)` over the common denominator. -/
noncomputable def numerator (s : Finset ι) (y z : ι → F) : F[X] :=
  ∑ c ∈ s, C (z c) * ∏ d ∈ s.erase c, (X - C (y d))

theorem natDegree_prod_erase (y : ι → F) {c : ι} (hc : c ∈ s) :
    (∏ d ∈ s.erase c, (X - C (y d))).natDegree = #s - 1 := by
  rw [natDegree_prod_of_monic _ _ fun d _ => monic_X_sub_C (y d)]
  simp [card_erase_of_mem hc]

theorem degree_numerator_lt (y z : ι → F) (hs : s.Nonempty) :
    (numerator s y z).degree < #s := by
  have hpos : 0 < #s := card_pos.mpr hs
  refine lt_of_le_of_lt (degree_sum_le _ _) ((Finset.sup_lt_iff (by simp)).mpr fun c hc => ?_)
  refine lt_of_le_of_lt degree_le_natDegree ?_
  have hle := natDegree_C_mul_le (z c) (∏ d ∈ s.erase c, (X - C (y d)))
  rw [natDegree_prod_erase y hc] at hle
  exact_mod_cast (by omega : (C (z c) * ∏ d ∈ s.erase c, (X - C (y d))).natDegree < #s)

/-- The leading coefficient is what the row of ones says. -/
theorem coeff_numerator (y z : ι → F) : (numerator s y z).coeff (#s - 1) = ∑ c ∈ s, z c := by
  rw [numerator, finsetSum_coeff]
  refine sum_congr rfl fun c hc => ?_
  have hmonic : (∏ d ∈ s.erase c, (X - C (y d))).coeff (#s - 1) = 1 := by
    rw [← natDegree_prod_erase y hc]
    exact (monic_prod_of_monic _ _ fun d _ => monic_X_sub_C (y d)).coeff_natDegree
  rw [coeff_C_mul, hmonic, mul_one]

/-- Where the denominators are not zero, the numerator is the product of all of them times
the combination. -/
theorem eval_numerator (z : ι → F) {x : F} (hx : ∀ c ∈ s, x ≠ y c) :
    (numerator s y z).eval x = (∏ c ∈ s, (x - y c)) * ∑ c ∈ s, (x - y c)⁻¹ * z c := by
  rw [numerator, eval_finsetSum, mul_sum]
  refine sum_congr rfl fun c hc => ?_
  have hne : x - y c ≠ 0 := sub_ne_zero.mpr (hx c hc)
  rw [eval_mul, eval_C, eval_prod, ← mul_prod_erase s (fun d => x - y d) hc]
  simp only [eval_sub, eval_X, eval_C]
  field_simp

/-- At a pole only the term of its column is left. -/
theorem eval_numerator_pole (y z : ι → F) {c : ι} (hc : c ∈ s) :
    (numerator s y z).eval (y c) = z c * ∏ d ∈ s.erase c, (y c - y d) := by
  rw [numerator, eval_finsetSum, sum_eq_single_of_mem c hc]
  · simp [eval_prod]
  · intro d hd hne
    have hmem : c ∈ s.erase d := mem_erase.mpr ⟨Ne.symm hne, hc⟩
    rw [eval_mul, eval_prod, prod_eq_zero hmem (by simp), mul_zero]

/-- A combination with the numerator zero is zero. -/
theorem eq_zero_of_numerator (hy : Set.InjOn y s) (h : numerator s y z = 0) :
    ∀ c ∈ s, z c = 0 := by
  intro c hc
  have heval := eval_numerator_pole y z hc
  rw [h, eval_zero] at heval
  refine (mul_eq_zero.mp heval.symm).resolve_right (prod_ne_zero_iff.mpr fun d hd => ?_)
  have hd := mem_erase.mp hd
  exact sub_ne_zero.mpr fun heq => hd.1 (hy hc hd.2 heq).symm

/-- The numerator has a root at every row that vanishes. -/
theorem numerator_root {t : Finset κ} {x : κ → F} (hxy : ∀ r ∈ t, ∀ c ∈ s, x r ≠ y c)
    (hrows : ∀ r ∈ t, ∑ c ∈ s, (x r - y c)⁻¹ * z c = 0) :
    ∀ r ∈ t, (numerator s y z).eval (x r) = 0 := by
  intro r hr
  rw [eval_numerator z (hxy r hr), hrows r hr, mul_zero]

/-- **As many rows as columns** have only the trivial solution. -/
theorem eq_zero {t : Finset κ} {x : κ → F} (hx : Set.InjOn x t) (hy : Set.InjOn y s)
    (hxy : ∀ r ∈ t, ∀ c ∈ s, x r ≠ y c) (hcard : #s ≤ #t)
    (hrows : ∀ r ∈ t, ∑ c ∈ s, (x r - y c)⁻¹ * z c = 0) : ∀ c ∈ s, z c = 0 := by
  rcases s.eq_empty_or_nonempty with rfl | hs
  · simp
  refine eq_zero_of_numerator hy (eq_zero_of_degree_lt_of_eval_index_eq_zero t hx ?_
    (numerator_root hxy hrows))
  exact lt_of_lt_of_le (degree_numerator_lt y z hs) (by exact_mod_cast hcard)

/-- A row of ones takes the place of one of them. -/
theorem eq_zero_of_sum {t : Finset κ} {x : κ → F} (hx : Set.InjOn x t) (hy : Set.InjOn y s)
    (hxy : ∀ r ∈ t, ∀ c ∈ s, x r ≠ y c) (hcard : #s ≤ #t + 1)
    (hrows : ∀ r ∈ t, ∑ c ∈ s, (x r - y c)⁻¹ * z c = 0) (hones : ∑ c ∈ s, z c = 0) :
    ∀ c ∈ s, z c = 0 := by
  rcases s.eq_empty_or_nonempty with rfl | hs
  · simp
  have hpos : 0 < #s := card_pos.mpr hs
  -- the sum is the leading coefficient
  have hdegree : (numerator s y z).degree < (#s - 1 : Nat) := by
    have hle : (numerator s y z).degree ≤ (#s - 1 : Nat) := by
      refine degree_le_iff_coeff_zero _ _ |>.mpr fun m hm => coeff_eq_zero_of_degree_lt ?_
      refine lt_of_lt_of_le (degree_numerator_lt y z hs) ?_
      have hm : #s - 1 < m := by exact_mod_cast hm
      exact_mod_cast (by omega : #s ≤ m)
    exact lt_of_le_of_ne hle fun heq => coeff_ne_zero_of_eq_degree heq
      (by rw [coeff_numerator, hones])
  refine eq_zero_of_numerator hy (eq_zero_of_degree_lt_of_eval_index_eq_zero t hx ?_
    (numerator_root hxy hrows))
  exact lt_of_lt_of_le hdegree (by exact_mod_cast (by omega : #s - 1 ≤ #t))

end FecRelay.Base.Cauchy
