import FecRelay.Base.Run

/-!
# Leaky buckets

A bucket is filled in lumps and leaks at the constant rate of one unit every `t`.
`fill` is the ideal bucket, which leaks continuously and is never below empty. A
meter that follows it may read the amount leaked only in whole units; `lag_step`
says what one such reading costs. `Metered` is the weaker law that nothing leaks
faster than one unit every `t`; it alone bounds what any stretch of a run put in.
-/

namespace FecRelay.Base.LeakyBucket

variable {K : Type} [Field K]

/-- The level of a bucket when it was last filled. -/
structure Bucket (K : Type) where
  level : K
  time : K

/-- A lump put in at some time. -/
structure Fill (K : Type) where
  time : K
  amount : K

/-- The total of some lumps. -/
def total (xs : List (Fill K)) : K := (xs.map (·.amount)).sum

@[simp] theorem total_nil : total ([] : List (Fill K)) = 0 := rfl

@[simp] theorem total_cons (x : Fill K) (xs : List (Fill K)) :
    total (x :: xs) = x.amount + total xs := by
  simp [total]

@[simp] theorem total_append (xs ys : List (Fill K)) :
    total (xs ++ ys) = total xs + total ys := by
  simp [total]

variable [LinearOrder K]

/-- The level after `leaked` units, which cannot be negative. -/
def leak (level leaked : K) : K := max 0 (level - leaked)

/-- The ideal bucket: it has leaked one unit every `t` since it was last filled. -/
def fill (t : K) (b : Bucket K) (x : Fill K) : Bucket K :=
  { level := leak b.level ((x.time - b.time) / t) + x.amount, time := x.time }

theorem leak_nonneg (level leaked : K) : 0 ≤ leak level leaked := le_max_left _ _

theorem sub_le_leak (level leaked : K) : level - leaked ≤ leak level leaked := le_max_right _ _

/-! ## Meters that read whole units -/

/-- A meter after `n` lumps is above the ideal level by less than `n` units. -/
def Tracks (n : Nat) (u f : K) : Prop := f ≤ u ∧ (u = f ∨ u - f < n)

theorem tracks_zero (u : K) : Tracks 0 u u := ⟨le_rfl, Or.inl rfl⟩

variable [IsStrictOrderedRing K]

/-- An integer quotient falls short of the exact one by less than a unit. -/
theorem quotient_bounds {t : Int} (ht : 0 < t) (e : Int) :
    ((e / t : Int) : K) ≤ (e : K) / t ∧ (e : K) / t < ((e / t : Int) : K) + 1 := by
  have htq : (0 : K) < t := by exact_mod_cast ht
  have hlow : e / t * t ≤ e := Int.ediv_mul_le e (by omega)
  have hhigh : e < (e / t + 1) * t := Int.lt_ediv_add_one_mul_self e ht
  refine ⟨?_, ?_⟩
  · rw [le_div_iff₀ htq]
    exact_mod_cast hlow
  · rw [div_lt_iff₀ htq]
    exact_mod_cast hhigh

/-- A meter at `u` above an ideal level `f` reads a leak of `r` where `q` units
leaked, less than one unit more. It stays above the ideal level, and its lead grows
by less than one unit. -/
theorem lag_step {u f r q : K} (hle : f ≤ u) (hrq : r ≤ q) (hqr : q < r + 1) :
    leak f q ≤ leak u r ∧ leak u r - leak f q < u - f + 1 := by
  refine ⟨max_le_max le_rfl (by linarith), ?_⟩
  rcases le_total (u - r) 0 with hempty | hlevel
  · -- the meter reads empty, and no ideal level is below that
    have hu : leak u r = 0 := max_eq_left hempty
    have hf : 0 ≤ leak f q := leak_nonneg f q
    rw [hu]
    linarith
  · have hu : leak u r = u - r := max_eq_right hlevel
    have hf : f - q ≤ leak f q := sub_le_leak f q
    rw [hu]
    linarith

theorem Tracks.step {n : Nat} {u f r q : K} (h : Tracks n u f) (hrq : r ≤ q)
    (hqr : q < r + 1) (a : K) : Tracks (n + 1) (leak u r + a) (leak f q + a) := by
  obtain ⟨hle, hlead⟩ := lag_step h.1 hrq hqr
  refine ⟨by linarith, Or.inr ?_⟩
  have hn : (0 : K) ≤ n := Nat.cast_nonneg n
  push_cast
  rcases h.2 with heq | hlt
  · rw [heq] at hlead ⊢
    linarith
  · linarith

theorem Tracks.lt {n : Nat} {u f : K} (h : Tracks n u f) (hn : 0 < n) : u - f < n := by
  have hpos : (0 : K) < n := Nat.cast_pos.mpr hn
  rcases h.2 with heq | hlt
  · rw [heq, sub_self]
    exact hpos
  · exact hlt

/-! ## Buckets that leak no faster than one unit every `t` -/

/-- One lump goes in, no more leaked before than one unit every `t`, and the bucket
holds no more than `cap` then. -/
structure Metered (t cap : K) (b : Bucket K) (x : Fill K) (b' : Bucket K) : Prop where
  time : b'.time = x.time
  lump : x.amount ≤ b'.level
  slow : b.level - (x.time - b.time) / t + x.amount ≤ b'.level
  within : b'.level ≤ cap

omit [IsStrictOrderedRing K] in
/-- No lump is larger than what the bucket holds. -/
theorem amount_le_of_metered {t cap : K} {b b' : Bucket K} {xs : List (Fill K)}
    (h : Run (Metered t cap) b xs b') : ∀ x ∈ xs, x.amount ≤ cap := by
  induction h with
  | nil => intro x hx; exact absurd hx List.not_mem_nil
  | snoc _ hstep ih =>
      intro y hy
      rcases List.mem_append.mp hy with hy | hy
      · exact ih y hy
      · rw [List.mem_singleton.mp hy]
        exact le_trans hstep.lump hstep.within

/-- What goes in later is in the bucket, or had the time to leak out of it. -/
theorem total_le_of_metered {t cap : K} {b b' : Bucket K} {xs : List (Fill K)}
    (h : Run (Metered t cap) b xs b') :
    b.level + total xs ≤ b'.level + (b'.time - b.time) / t := by
  induction h with
  | nil => simp
  | @snoc u v ys x _ hstep ih =>
      have hsplit : (v.time - b.time) / t = (x.time - u.time) / t + (u.time - b.time) / t := by
        rw [hstep.time]
        ring
      have hslow := hstep.slow
      rw [total_append, total_cons, total_nil, hsplit]
      linarith

/-- From one lump to a later one, no more goes in than the last level and what had
the time to leak between them. -/
theorem total_le_of_metered_cons {t cap : K} {b b' : Bucket K} {x : Fill K} {xs : List (Fill K)}
    (h : Run (Metered t cap) b (x :: xs) b') :
    total (x :: xs) ≤ b'.level + (b'.time - x.time) / t := by
  obtain ⟨c, hfirst, hrest⟩ := Run.cons_iff.mp h
  have hlump := hfirst.lump
  have hlater := total_le_of_metered hrest
  rw [hfirst.time] at hlater
  rw [total_cons]
  linarith

/-- **Window bound.** Lump `i` through lump `j` put in at most what the bucket holds
and what leaks from the one to the other. -/
theorem window {t cap : K} {b b' : Bucket K} {xs : List (Fill K)}
    (h : Run (Metered t cap) b xs b') {i j : Nat} (hij : i ≤ j) (hj : j < xs.length) :
    total ((xs.take (j + 1)).drop i) ≤ cap + (xs[j].time - xs[i].time) / t := by
  have hi : i < (xs.take (j + 1)).length := by
    rw [List.length_take]
    omega
  -- the run up to lump `j`, whose last step leaves the bucket within its size
  rw [← List.take_append_drop (j + 1) xs] at h
  obtain ⟨c, huntil, _⟩ := Run.of_append h
  have hlast := huntil
  rw [← List.take_append_getElem hj] at hlast
  obtain ⟨_, _, hstep⟩ := Run.snoc_iff.mp hlast
  -- its part from lump `i` on
  rw [← List.take_append_drop i (xs.take (j + 1))] at huntil
  obtain ⟨_, _, hpart⟩ := Run.of_append huntil
  rw [List.drop_eq_getElem_cons hi] at hpart ⊢
  have hbound := total_le_of_metered_cons hpart
  rw [hstep.time, List.getElem_take] at hbound
  have hcap := hstep.within
  rw [List.getElem_take]
  linarith

end FecRelay.Base.LeakyBucket
