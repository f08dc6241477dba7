import Mathlib.Algebra.BigOperators.Intervals
import Mathlib.Algebra.Field.Basic
import Mathlib.Algebra.Module.BigOperators
import Mathlib.Tactic.Abel
import Mathlib.Tactic.Ring

/-!
# Elimination in place

Gaussian elimination that overwrites a matrix: below a pivot the entry that became zero holds
the multiplier that made it so, and the rows are permuted through an array of pivots. After
`n` pivots every row of the original matrix is its multipliers times the pivot rows, plus what
is left of it. From that, a forward and a backward pass over the right-hand sides find what
solves the equations, and a column without a pivot shows that the equations have a kernel.
-/

namespace FecRelay.Base.Elimination

open Finset

variable {F : Type} [Field F]

/-! ## One row -/

section row

variable {U U' : Nat → Nat → F} {cols m : Nat} {a row row' : Nat → F}

/-- `row` is what the first `m` pivot rows leave of `a`: multipliers in the columns before
`m`, the rest of the row from there on. -/
def Reduced (U : Nat → Nat → F) (cols : Nat) (a row : Nat → F) (m : Nat) : Prop :=
  ∀ c < cols, a c = ∑ p ∈ range m, row p * U p c + if m ≤ c then row c else 0

theorem Reduced.refl (U : Nat → Nat → F) (cols : Nat) (a : Nat → F) : Reduced U cols a a 0 := by
  intro c _
  simp

/-- A row is reduced by the pivot rows, whatever else they are part of. -/
theorem Reduced.congr (h : Reduced U cols a row m)
    (hU : ∀ p < m, ∀ c < cols, U' p c = U p c) : Reduced U' cols a row m := by
  intro c hc
  rw [h c hc]
  congr 1
  refine sum_congr rfl fun p hp => ?_
  rw [hU p (mem_range.mp hp) c hc]

/-- One more pivot row is taken away, and the multiplier is stored where the zero would be. -/
theorem Reduced.eliminate (h : Reduced U cols a row m) (hpivot : U m m ≠ 0)
    (hleft : ∀ c < m, U m c = 0) (hbefore : ∀ c < m, row' c = row c)
    (hat : row' m = row m / U m m)
    (hafter : ∀ c < cols, m < c → row' c = row c - row m / U m m * U m c) :
    Reduced U cols a row' (m + 1) := by
  intro c hc
  have hsum : ∑ p ∈ range m, row' p * U p c = ∑ p ∈ range m, row p * U p c :=
    sum_congr rfl fun p hp => by rw [hbefore p (mem_range.mp hp)]
  rw [sum_range_succ, hsum, h c hc, add_assoc]
  congr 1
  rcases Nat.lt_trichotomy c m with hlt | rfl | hgt
  · simp [hleft c hlt, Nat.not_le.mpr hlt, Nat.not_le.mpr (Nat.lt_succ_of_lt hlt)]
  · simp [hat, div_mul_cancel₀ _ hpivot]
  · rw [if_pos hgt.le, if_pos (by omega), hat, hafter c hc hgt]
    ring

variable {V : Type} [AddCommGroup V] [Module F V]

/-- What the row at a position says about `x`. -/
def image (U : Nat → Nat → F) (cols : Nat) (x : Nat → V) (p : Nat) : V :=
  ∑ c ∈ range cols, U p c • x c

theorem Reduced.apply (h : Reduced U cols a row m) (x : Nat → V) :
    ∑ c ∈ range cols, a c • x c = ∑ p ∈ range m, row p • image U cols x p +
      ∑ c ∈ range cols, (if m ≤ c then row c else 0) • x c := by
  have hterm : ∀ c ∈ range cols, a c • x c =
      ∑ p ∈ range m, (row p * U p c) • x c + (if m ≤ c then row c else 0) • x c := by
    intro c hc
    rw [h c (mem_range.mp hc), add_smul, sum_smul]
  rw [sum_congr rfl hterm, sum_add_distrib, sum_comm]
  congr 1
  refine sum_congr rfl fun p _ => ?_
  rw [image, smul_sum]
  exact sum_congr rfl fun c _ => mul_smul _ _ _

end row

/-! ## The matrix -/

/-- The pivot row of a position from its pivot on. -/
def upper (M : Nat → Nat → F) (P : Nat → Nat) (p c : Nat) : F := if p ≤ c then M (P p) c else 0

/-- The stored matrix `M` after `n` pivots of `A`, with the rows in the order `P`. -/
structure Factors (A M : Nat → Nat → F) (P : Nat → Nat) (n rows cols : Nat) : Prop where
  pivot : ∀ p < n, M (P p) p ≠ 0
  reduced : ∀ k < rows, Reduced (upper M P) cols (A (P k)) (M (P k)) (min k n)

section matrix

variable {A A' M M' : Nat → Nat → F} {P P' : Nat → Nat} {n rows rows' cols cols' : Nat}

theorem Factors.start (A : Nat → Nat → F) (P : Nat → Nat) (rows cols : Nat) :
    Factors A A P 0 rows cols where
  pivot p hp := absurd hp (Nat.not_lt_zero p)
  reduced k _ := by
    rw [Nat.min_zero]
    exact Reduced.refl _ _ _

/-- Rows that are not pivots yet may change places. -/
theorem Factors.permute (h : Factors A M P n rows cols) (hpivots : ∀ p < n, P' p = P p)
    (hrest : ∀ k < rows, n ≤ k → ∃ k' < rows, n ≤ k' ∧ P' k = P k') :
    Factors A M P' n rows cols where
  pivot p hp := by
    rw [hpivots p hp]
    exact h.pivot p hp
  reduced k hk := by
    have hupper : ∀ p < n, ∀ c < cols, upper M P' p c = upper M P p c := by
      intro p hp c _
      rw [upper, upper, hpivots p hp]
    rcases Nat.lt_or_ge k n with hlt | hge
    · rw [hpivots k hlt]
      refine (h.reduced k hk).congr fun p hp => hupper p ?_
      omega
    · obtain ⟨k', hk', hge', heq⟩ := hrest k hk hge
      have hreduced := h.reduced k' hk'
      rw [Nat.min_eq_right hge'] at hreduced
      rw [heq, Nat.min_eq_right hge]
      exact hreduced.congr hupper

/-- The next pivot: rows above and the pivot row stay, the rows below are reduced by it. -/
theorem Factors.eliminate (h : Factors A M P n rows cols) (hpivot : M (P n) n ≠ 0)
    (habove : ∀ k ≤ n, M' (P k) = M (P k))
    (hbelow : ∀ k < rows, n < k → (∀ c < n, M' (P k) c = M (P k) c) ∧
      M' (P k) n = M (P k) n / M (P n) n ∧
      ∀ c < cols, n < c → M' (P k) c = M (P k) c - M (P k) n / M (P n) n * M (P n) c) :
    Factors A M' P (n + 1) rows cols where
  pivot p hp := by
    rw [habove p (by omega)]
    rcases Nat.lt_succ_iff_lt_or_eq.mp hp with hlt | rfl
    · exact h.pivot p hlt
    · exact hpivot
  reduced k hk := by
    have hupper : ∀ p ≤ n, ∀ c, upper M' P p c = upper M P p c := by
      intro p hp c
      rw [upper, upper, habove p hp]
    have hold : Reduced (upper M' P) cols (A (P k)) (M (P k)) (min k n) :=
      (h.reduced k hk).congr fun p hp c _ => hupper p (by omega) c
    rcases Nat.lt_or_ge n k with hgt | hle
    · have hdiag : upper M' P n n = M (P n) n := by
        rw [hupper n le_rfl, upper, if_pos le_rfl]
      obtain ⟨hbefore, hat, hafter⟩ := hbelow k hk hgt
      rw [Nat.min_eq_right hgt.le] at hold
      rw [Nat.min_eq_right hgt]
      refine hold.eliminate (hdiag ▸ hpivot) (fun c hc => if_neg (by omega)) hbefore
        (hdiag ▸ hat) fun c hc hnc => ?_
      rw [hafter c hc hnc, hdiag, hupper n le_rfl, upper, if_pos hnc.le]
    · rw [habove k hle, Nat.min_eq_left (by omega)]
      rwa [Nat.min_eq_left hle] at hold

/-- Columns to the right that no row has, and rows that were reduced by the pivots already. -/
theorem Factors.grow (h : Factors A M P n rows cols)
    (hcolumns : ∀ k < rows, ∀ c, cols ≤ c → c < cols' → A' (P k) c = 0 ∧ M' (P k) c = 0)
    (hsame : ∀ k < rows, ∀ c < cols, A' (P k) c = A (P k) c ∧ M' (P k) c = M (P k) c)
    (hP : ∀ k < rows, P' k = P k) (hn : n ≤ rows) (hncols : n ≤ cols)
    (hnew : ∀ k < rows', rows ≤ k → Reduced (upper M' P') cols' (A' (P' k)) (M' (P' k)) n) :
    Factors A' M' P' n rows' cols' where
  pivot p hp := by
    rw [hP p (by omega), (hsame p (by omega) p (by omega)).2]
    exact h.pivot p hp
  reduced k hk := by
    rcases Nat.lt_or_ge k rows with hlt | hge
    · rw [hP k hlt]
      intro c hc
      rcases Nat.lt_or_ge c cols with hccols | hccols
      · rw [(hsame k hlt c hccols).1, h.reduced k hlt c hccols, (hsame k hlt c hccols).2]
        congr 1
        refine sum_congr rfl fun p hp => ?_
        have hp := mem_range.mp hp
        rw [upper, upper, hP p (by omega), (hsame p (by omega) c hccols).2,
          (hsame k hlt p (by omega)).2]
      · rw [(hcolumns k hlt c hccols hc).1, (hcolumns k hlt c hccols hc).2, ite_self, add_zero]
        refine (sum_eq_zero fun p hp => ?_).symm
        have hp := mem_range.mp hp
        rw [upper, hP p (by omega), (hcolumns p (by omega) c hccols hc).2, ite_self, mul_zero]
    · rw [Nat.min_eq_right (by omega)]
      exact hnew k hk hge

/-! ## Solving -/

section solve

variable {V : Type} [AddCommGroup V] [Module F V]

/-- The equation of a pivot row, in terms of what the pivot rows say. -/
theorem Factors.apply (h : Factors A M P n rows cols) {k : Nat} (hk : k < n) (hrows : n ≤ rows)
    (x : Nat → V) :
    ∑ c ∈ range cols, A (P k) c • x c =
      ∑ p ∈ range k, M (P k) p • image (upper M P) cols x p + image (upper M P) cols x k := by
  have hreduced := h.reduced k (by omega)
  rw [Nat.min_eq_left hk.le] at hreduced
  exact hreduced.apply x

/-- What is left of the right-hand side at position `k` after `n` columns of the forward pass. -/
def forward (M : Nat → Nat → F) (P : Nat → Nat) (cols : Nat) (x : Nat → V) (n k : Nat) : V :=
  ∑ p ∈ Ico n k, M (P k) p • image (upper M P) cols x p + image (upper M P) cols x k

/-- What is left of it when the columns from `n` on are known. -/
def backward (M : Nat → Nat → F) (P : Nat → Nat) (x : Nat → V) (n k : Nat) : V :=
  ∑ c ∈ Ico k n, M (P k) c • x c

theorem Factors.forward_zero (h : Factors A M P n rows cols) {k : Nat} (hk : k < n)
    (hrows : n ≤ rows) (x : Nat → V) :
    forward M P cols x 0 k = ∑ c ∈ range cols, A (P k) c • x c := by
  rw [h.apply hk hrows, forward, Nat.Ico_zero_eq_range]

theorem forward_step (M : Nat → Nat → F) (P : Nat → Nat) (cols : Nat) (x : Nat → V) {n k : Nat}
    (hk : n < k) :
    forward M P cols x n k - M (P k) n • forward M P cols x n n =
      forward M P cols x (n + 1) k := by
  simp only [forward, Ico_self, sum_empty, zero_add]
  rw [sum_eq_sum_Ico_succ_bot hk]
  abel

theorem forward_of_le (M : Nat → Nat → F) (P : Nat → Nat) (cols : Nat) (x : Nat → V) {n k : Nat}
    (hk : k ≤ n) : forward M P cols x n k = image (upper M P) cols x k := by
  rw [forward, Ico_eq_empty_of_le hk, sum_empty, zero_add]

/-- The forward pass leaves what the backward pass begins with. -/
theorem backward_cols (M : Nat → Nat → F) (P : Nat → Nat) (x : Nat → V) {k : Nat}
    (hk : k ≤ cols) : backward M P x cols k = image (upper M P) cols x k := by
  have hzero : ∑ c ∈ range k, upper M P k c • x c = 0 :=
    sum_eq_zero fun c hc => by rw [upper, if_neg (by simpa using hc), zero_smul]
  rw [image, ← sum_range_add_sum_Ico _ hk, hzero, zero_add, backward]
  refine sum_congr rfl fun c hc => ?_
  rw [upper, if_pos (mem_Ico.mp hc).1]

theorem backward_step (M : Nat → Nat → F) (P : Nat → Nat) (x : Nat → V) {n k : Nat}
    (hk : k ≤ n) :
    backward M P x (n + 1) k - M (P k) n • x n = backward M P x n k := by
  rw [backward, sum_Ico_succ_top hk, add_sub_cancel_right, backward]

theorem backward_self (M : Nat → Nat → F) (P : Nat → Nat) (x : Nat → V) {n : Nat}
    (hpivot : M (P n) n ≠ 0) : (M (P n) n)⁻¹ • backward M P x (n + 1) n = x n := by
  rw [backward, Nat.Ico_succ_singleton, sum_singleton, inv_smul_smul₀ hpivot]

end solve

/-- Where every column has a pivot, only zero solves the equations without a right-hand side. -/
theorem Factors.eq_zero {V : Type} [AddCommGroup V] [Module F V] (h : Factors A M P n n n)
    {x : Nat → V} (hx : ∀ k < n, ∑ c ∈ range n, A (P k) c • x c = 0) : ∀ c < n, x c = 0 := by
  have himage : ∀ k < n, image (upper M P) n x k = 0 := by
    intro k
    induction k using Nat.strong_induction_on with
    | _ k ih =>
        intro hk
        have happly := h.apply hk le_rfl x
        rw [hx k hk, sum_eq_zero fun p hp => by
          have hp := mem_range.mp hp
          rw [ih p hp (by omega), smul_zero], zero_add] at happly
        exact happly.symm
  -- from the last column back
  have hback : ∀ m ≤ n, ∀ c < n, n - m ≤ c → x c = 0 := by
    intro m
    induction m with
    | zero =>
        intro _ c hc hle
        omega
    | succ m ih =>
        intro hm c hc hle
        rcases Nat.lt_or_ge c (n - m) with hlt | hge
        · have hself := backward_self M P x (h.pivot c hc)
          have hzero : backward M P x (c + 1) c = backward M P x n c := by
            have hrest : ∑ c' ∈ Ico (c + 1) n, M (P c) c' • x c' = 0 :=
              sum_eq_zero fun c' hc' => by
                have hc' := mem_Ico.mp hc'
                rw [ih (by omega) c' (by omega) (by omega), smul_zero]
            rw [backward, backward, ← sum_Ico_consecutive _ (by omega : c ≤ c + 1) hc, hrest,
              add_zero]
          rw [← hself, hzero, backward_cols M P x hc.le, himage c hc, smul_zero]
        · exact ih (by omega) c hc hge
  exact fun c hc => hback n le_rfl c hc (by omega)

/-- A triangular system has a vector that its first `n` rows do not see. -/
theorem exists_upper_kernel (U : Nat → Nat → F) (hpivot : ∀ p < n, U p p ≠ 0)
    (hleft : ∀ p c, c < p → U p c = 0) (hn : n < cols) (m : Nat) (hm : m ≤ n) :
    ∃ z : Nat → F, z n = 1 ∧ (∀ c, n < c → z c = 0) ∧ ∀ p < n, n - m ≤ p →
      ∑ c ∈ range cols, U p c * z c = 0 := by
  induction m with
  | zero =>
      refine ⟨fun c => if c = n then 1 else 0, if_pos rfl, fun c hc => if_neg (by omega), ?_⟩
      intro p hp hge
      omega
  | succ m ih =>
      obtain ⟨z, hone, hright, hrows⟩ := ih (by omega)
      -- the entry at the next row up is what makes that row vanish
      have hq : n - (m + 1) < n := by omega
      generalize hqdef : n - (m + 1) = q at hq
      refine ⟨Function.update z q
        (z q - (∑ c ∈ range cols, U q c * z c) / U q q), ?_, ?_, ?_⟩
      · rw [Function.update_of_ne (by omega), hone]
      · intro c hc
        rw [Function.update_of_ne (by omega), hright c hc]
      · intro p hp hge
        have hsum : ∑ c ∈ range cols, U p c * Function.update z q
            (z q - (∑ c ∈ range cols, U q c * z c) / U q q) c =
            ∑ c ∈ range cols, U p c * z c -
              U p q * ((∑ c ∈ range cols, U q c * z c) / U q q) := by
          rw [eq_sub_iff_add_eq, ← sum_erase_add _ _ (mem_range.mpr (by omega : q < cols)),
            ← sum_erase_add _ (fun c => U p c * z c) (mem_range.mpr (by omega : q < cols)),
            Function.update_self]
          have hrest : ∑ c ∈ (range cols).erase q, U p c * Function.update z q
              (z q - (∑ c ∈ range cols, U q c * z c) / U q q) c =
              ∑ c ∈ (range cols).erase q, U p c * z c :=
            sum_congr rfl fun c hc => by rw [Function.update_of_ne (ne_of_mem_erase hc)]
          rw [hrest]
          ring
        rw [hsum]
        rcases Nat.lt_or_ge q p with hlt | hle
        · rw [hleft p q hlt, zero_mul, sub_zero]
          exact hrows p hp (by omega)
        · obtain rfl : p = q := by omega
          rw [mul_div_cancel₀ _ (hpivot p hp), sub_self]

/-- Where no row that is left has a pivot for the next column, the equations do not determine
what they are about: they vanish at a vector that does not. -/
theorem Factors.kernel (h : Factors A M P n rows cols) (hn : n < cols)
    (hzero : ∀ k < rows, n ≤ k → M (P k) n = 0) :
    ∃ z : Nat → F, z n = 1 ∧ (∀ c, n < c → z c = 0) ∧
      ∀ k < rows, ∑ c ∈ range cols, A (P k) c * z c = 0 := by
  obtain ⟨z, hone, hright, hrows⟩ := exists_upper_kernel (upper M P)
    (fun p hp => by rw [upper, if_pos le_rfl]; exact h.pivot p hp)
    (fun p c hc => if_neg (by omega)) hn n le_rfl
  refine ⟨z, hone, hright, fun k hk => ?_⟩
  have himage : ∀ p < n, image (upper M P) cols z p = 0 := fun p hp => hrows p hp (by omega)
  have happly := (h.reduced k hk).apply z
  simp only [smul_eq_mul] at happly
  rw [happly, sum_eq_zero fun p hp => by
    rw [himage p (by have := mem_range.mp hp; omega), mul_zero], zero_add]
  rcases Nat.lt_or_ge k n with hlt | hge
  · rw [Nat.min_eq_left hlt.le]
    exact himage k hlt
  · rw [Nat.min_eq_right hge]
    refine sum_eq_zero fun c _ => ?_
    rcases Nat.lt_trichotomy c n with hcn | rfl | hcn
    · rw [if_neg (by omega), zero_mul]
    · rw [if_pos le_rfl, hzero k hk hge, zero_mul]
    · rw [hright c hcn, mul_zero]

end matrix

end FecRelay.Base.Elimination
