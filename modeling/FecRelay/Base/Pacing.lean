import Mathlib.Tactic

/-!
# Marks between items at a ratio

Marks are mixed into a sequence of items, `f` of them with every `d` items. Mark `k`
is due after `due f d k` items, and after `n` items `quota f d n` marks are due: the
two count the same from either side. A pair of counters, one that starts over after
`d` items and one that starts over after `f` marks, tells when a mark is due, as long
as neither of them has only one value.
-/

namespace FecRelay.Base.Pacing

/-- The number of items after which mark `k` is due, which is (k+1)d/f rounded up. -/
def due (f d k : Nat) : Nat := ((k + 1) * d + f - 1) / f

/-- The number of marks due after `n` items, which is nf/d rounded down. -/
def quota (f d n : Nat) : Nat := n * f / d

section counts

variable {f d : Nat}

theorem due_add_mul (hf : 0 < f) (q k : Nat) : due f d (q * f + k) = q * d + due f d k := by
  unfold due
  have hsplit : (q * f + k + 1) * d + f - 1 = (k + 1) * d + f - 1 + f * (q * d) := by
    have hmul : (q * f + k + 1) * d = (k + 1) * d + f * (q * d) := by ring
    omega
  rw [hsplit, Nat.add_mul_div_left _ _ hf, Nat.add_comm]

/-- No mark is due before the first item. -/
theorem due_pos (hf : 0 < f) (hd : 0 < d) (k : Nat) : 0 < due f d k := by
  unfold due
  apply Nat.div_pos _ hf
  have hle : 1 * 1 ≤ (k + 1) * d := Nat.mul_le_mul (by omega) hd
  omega

/-- A mark is due after at most `n` items iff it is one of the marks of `n` items. -/
theorem due_le_iff (hf : 0 < f) (hd : 0 < d) {k n : Nat} :
    due f d k ≤ n ↔ k < quota f d n := by
  unfold due quota
  have hsucc : (n + 1) * f = n * f + f := Nat.succ_mul n f
  have hquota : k < n * f / d ↔ (k + 1) * d ≤ n * f := Nat.le_div_iff_mul_le hd
  rw [← Nat.lt_succ_iff, Nat.div_lt_iff_lt_mul hf, hquota]
  show (k + 1) * d + f - 1 < (n + 1) * f ↔ (k + 1) * d ≤ n * f
  omega

theorem quota_add_mul (hd : 0 < d) (q n : Nat) :
    quota f d (q * d + n) = q * f + quota f d n := by
  unfold quota
  have hsplit : (q * d + n) * f = n * f + d * (q * f) := by ring
  rw [hsplit, Nat.add_mul_div_left _ _ hd, Nat.add_comm]

theorem quota_mono {n m : Nat} (h : n ≤ m) : quota f d n ≤ quota f d m :=
  Nat.div_le_div_right (Nat.mul_le_mul_right f h)

/-- Less than a round of items has less than a round of marks. -/
theorem quota_lt (hf : 0 < f) {n : Nat} (h : n < d) : quota f d n < f := by
  unfold quota
  rw [Nat.div_lt_iff_lt_mul (by omega), Nat.mul_comm]
  exact (Nat.mul_lt_mul_left hf).mpr h

theorem quota_self (hd : 0 < d) : quota f d d = f := Nat.mul_div_cancel_left f hd

end counts

/-! ## Counters -/

/-- The place of the latest item in its round, from 1 on, and the place of the next mark
in its round, from 0 on. -/
structure Counters where
  item1 : Nat := 0
  mark : Nat := 0
  deriving DecidableEq, Repr

namespace Counters

/-- The next mark is due. -/
def marks (f d : Nat) (c : Counters) : Bool := decide (c.item1 = due f d c.mark)

def onMark (f : Nat) (c : Counters) : Counters := { c with mark := (c.mark + 1) % f }

def onItem (d : Nat) (c : Counters) : Counters := { c with item1 := c.item1 % d + 1 }

/-- The counters stand where `n` items and `r` marks put them, and the marks of all items
but the latest went out. -/
structure OnPace (f d n r : Nat) (c : Counters) : Prop where
  item1 : c.item1 = if n = 0 then 0 else (n - 1) % d + 1
  mark : c.mark = r % f
  lower : quota f d (n - 1) ≤ r
  upper : r ≤ quota f d n

variable {f d n r : Nat} {c : Counters}

theorem onPace_init : OnPace f d 0 0 {} where
  item1 := rfl
  mark := (Nat.zero_mod f).symm
  lower := by simp [quota]
  upper := Nat.zero_le _

/-- With at least two places on either counter, a mark is seen to be due exactly when one
is missing. -/
theorem OnPace.marks_iff (h : OnPace f d n r c) (hf : 2 ≤ f) (hd : 2 ≤ d) :
    c.marks f d = true ↔ r < quota f d n := by
  have hf' : 0 < f := by omega
  have hd' : 0 < d := by omega
  unfold marks
  rw [decide_eq_true_iff, h.item1, h.mark]
  by_cases hn : n = 0
  · -- nothing is due before the first item
    subst hn
    have hpos := due_pos hf' hd' (r % f)
    have hzero : quota f d 0 = 0 := by simp [quota]
    rw [if_pos rfl, hzero]
    omega
  rw [if_neg hn]
  -- the latest item has place `i` in round `q`, and `k` marks of the round went out
  obtain ⟨q, i, hi, hsplit⟩ : ∃ q i, i < d ∧ n - 1 = q * d + i :=
    ⟨(n - 1) / d, (n - 1) % d, Nat.mod_lt _ hd', (Nat.div_add_mod' (n - 1) d).symm⟩
  have hn1 : n = q * d + (i + 1) := by omega
  have hplace : (n - 1) % d = i := by rw [hsplit, Nat.mul_add_mod', Nat.mod_eq_of_lt hi]
  have hlower := h.lower
  have hupper := h.upper
  rw [hsplit, quota_add_mul hd'] at hlower
  rw [hn1, quota_add_mul hd'] at hupper ⊢
  rw [← hn1, hplace]
  obtain ⟨k, rfl⟩ : ∃ k, r = q * f + k := ⟨r - q * f, by omega⟩
  have hself : quota f d d = f := quota_self hd'
  have hround : quota f d (i + 1) ≤ f := le_of_le_of_eq (quota_mono hi) hself
  by_cases hk : k < f
  · -- the mark is due after place `i + 1` iff it is due by then, and it was not before
    have hsame : (q * f + k) % f = k := by rw [Nat.mul_add_mod', Nat.mod_eq_of_lt hk]
    have hnow := due_le_iff hf' hd' (k := k) (n := i + 1)
    have hbefore := due_le_iff hf' hd' (k := k) (n := i)
    rw [hsame]
    omega
  · -- the round's marks are all out, and the first of the next is due earlier in its round
    have hall : k = f := by omega
    have hlast : i + 1 = d := by
      by_contra hne
      have := quota_lt hf' (show i + 1 < d by omega)
      omega
    have hfirst : due f d 0 < d := by
      unfold due
      rw [Nat.div_lt_iff_lt_mul hf', Nat.zero_add, Nat.one_mul]
      have hmul : (d - 1) * 2 ≤ (d - 1) * f := Nat.mul_le_mul_left _ hf
      have hsplit : d * f = (d - 1) * f + f := by
        rw [← Nat.succ_mul]
        congr 1
        omega
      omega
    have hzero : (q * f + k) % f = 0 := by rw [hall, Nat.mul_add_mod', Nat.mod_self]
    rw [hzero, hlast, hself]
    omega

/-- A mark goes out when it is due, and the counters keep up. -/
theorem OnPace.onMark (h : OnPace f d n r c) (hmarks : r < quota f d n) :
    OnPace f d n (r + 1) (c.onMark f) where
  item1 := h.item1
  mark := by
    show (c.mark + 1) % f = (r + 1) % f
    rw [h.mark, Nat.mod_add_mod]
  lower := le_trans h.lower (Nat.le_succ r)
  upper := hmarks

/-- An item goes out when no mark is due, and the counters keep up. -/
theorem OnPace.onItem (h : OnPace f d n r c) (hquota : quota f d n ≤ r) :
    OnPace f d (n + 1) r (c.onItem d) where
  item1 := by
    show c.item1 % d + 1 = _
    rw [h.item1, if_neg (Nat.succ_ne_zero n), Nat.add_sub_cancel]
    by_cases hn : n = 0
    · subst hn
      rfl
    · rw [if_neg hn, Nat.mod_add_mod, Nat.sub_add_cancel (Nat.pos_of_ne_zero hn)]
  mark := h.mark
  lower := hquota
  upper := le_trans h.upper (quota_mono (Nat.le_succ n))

/-- A mark that is missing after `n` items became due with the latest of them. -/
theorem OnPace.due_eq (h : OnPace f d n r c) (hf : 0 < f) (hd : 0 < d)
    (hmarks : r < quota f d n) : due f d r = n := by
  have hle := (due_le_iff hf hd).mpr hmarks
  have hpos := due_pos hf hd r
  have hlower := h.lower
  have hbefore := due_le_iff hf hd (k := r) (n := n - 1)
  omega

/-- With only one place on a counter, at the end of a round a mark is always due. -/
theorem marks_of_single (hf : 0 < f) (hd : 0 < d) (hsingle : f = 1 ∨ d = 1)
    (hitem : c.item1 = d) (hmark : c.mark < f) : c.marks f d = true := by
  unfold marks
  rw [decide_eq_true_iff, hitem]
  unfold due
  rcases hsingle with rfl | rfl
  · have hzero : c.mark = 0 := by omega
    rw [hzero, Nat.div_one]
    omega
  · symm
    rw [Nat.div_eq_iff hf]
    omega

end Counters

end FecRelay.Base.Pacing
