import Mathlib.Tactic

/-!
# Numbers on a circle

Things are counted without end and numbered modulo a period `p`. The distance from one
number to another, taken around the circle, is the difference of the counts as long as
these are less than a period apart; a distance of half a period or more is read as one
that goes backwards.
-/

namespace FecRelay.Base.Cyclic

/-- The way from `b` forward to `a`. -/
def distance (p a b : Nat) : Nat := (a + (p - b % p)) % p

/-- A distance that is read as going backwards. -/
def backwards (p x : Nat) : Bool := decide (p / 2 ≤ x)

variable {p a b : Nat}

/-- Forward the distance is the difference of the counts. -/
theorem distance_of_le (hp : 0 < p) (h : b ≤ a) :
    distance p (a % p) (b % p) = (a - b) % p := by
  unfold distance
  have hb := Nat.mod_lt b hp
  have hsplit := Nat.div_add_mod b p
  have hsum : a + (p - b % p) = a - b + p * (b / p + 1) := by
    rw [Nat.mul_add, Nat.mul_one]
    omega
  rw [Nat.mod_mod, Nat.mod_add_mod, hsum, Nat.add_mul_mod_self_left]

theorem distance_of_near (h : b ≤ a) (hnear : a - b < p) :
    distance p (a % p) (b % p) = a - b := by
  rw [distance_of_le (by omega) h, Nat.mod_eq_of_lt hnear]

/-- Backwards it is what is missing to a period. -/
theorem distance_of_behind (h : a < b) (hnear : b - a ≤ p) :
    distance p (a % p) (b % p) = p - (b - a) := by
  have hforward : distance p ((a + p) % p) (b % p) = (a + p - b) % p :=
    distance_of_le (by omega) (by omega)
  rw [Nat.add_mod_right] at hforward
  rw [hforward, Nat.mod_eq_of_lt (by omega)]
  omega

/-- Counts less than half a period apart are told apart. -/
theorem backwards_iff (hp : 2 ∣ p) (hahead : a < b + p / 2) (hbehind : b < a + p / 2) :
    backwards p (distance p (a % p) (b % p)) = true ↔ a < b := by
  unfold backwards
  rw [decide_eq_true_iff]
  have hhalf := Nat.mul_div_cancel' hp
  by_cases h : a < b
  · rw [distance_of_behind h (by omega)]
    omega
  · rw [distance_of_near (not_lt.mp h) (by omega)]
    omega

/-! ## Laps -/

/-- Counts less than a period apart are compared rightly by their numbers exactly if they
are in the same lap. -/
theorem mod_lt_mod_iff_same_lap (hahead : a < b + p) (hbehind : b < a + p) :
    (a % p < b % p ↔ a < b) ↔ a / p = b / p := by
  have hp : 0 < p := by omega
  have ha := Nat.div_add_mod a p
  have hb := Nat.div_add_mod b p
  have hamod := Nat.mod_lt a hp
  have hbmod := Nat.mod_lt b hp
  rcases lt_trichotomy (a / p) (b / p) with hlt | heq | hgt
  · -- `b` is in the next lap, at a lower number
    have hlap := Nat.mul_le_mul_left p hlt
    rw [Nat.mul_succ] at hlap
    constructor
    · intro h
      have := h.mpr (by omega)
      omega
    · omega
  · rw [heq] at ha
    exact ⟨fun _ => heq, fun _ => by omega⟩
  · have hlap := Nat.mul_le_mul_left p hgt
    rw [Nat.mul_succ] at hlap
    constructor
    · intro h
      have := h.mp (by omega)
      omega
    · omega

/-- A number and the lap are the count. -/
theorem eq_of_mod_of_div (hmod : a % p = b % p) (hdiv : a / p = b / p) : a = b := by
  rw [← Nat.div_add_mod a p, ← Nat.div_add_mod b p, hmod, hdiv]

end FecRelay.Base.Cyclic
