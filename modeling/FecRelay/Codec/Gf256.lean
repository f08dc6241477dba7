import FecRelay.Utility
import Mathlib.Algebra.Field.Defs
import Mathlib.Data.FinEnum
import Mathlib.Data.Fintype.EquivFin
import Mathlib.Logic.Function.Iterate

/-!
# The field of the codec

`gf256.cpp` fills its tables from the powers of the polynomial's root: `GF256_EXP_TABLE`
holds them, `GF256_LOG_TABLE` finds them, and products and quotients are sums and
differences of logarithms. Addition is XOR. The tables make the bytes a field.
-/

namespace FecRelay

/-- Visits every byte. -/
theorem forall_byte {P : UInt8 → Prop} (h : ∀ i : Fin 256, P (UInt8.ofFin i)) (x : UInt8) :
    P x := h x.toFin

namespace Gf256

/-- `GF256_GEN_POLY`. -/
def genPoly : List Nat :=
  [0x8e, 0x95, 0x96, 0xa6, 0xaf, 0xb1, 0xb2, 0xb4, 0xb8, 0xc3, 0xc6, 0xd4, 0xe1, 0xe7, 0xf3, 0xfa]

/-- `kDefaultPolynomialIndex`. -/
def defaultPolynomialIndex : Nat := 3

/-- `gf256_poly_init` for the default index. -/
def polynomial : Nat := genPoly.getD defaultPolynomialIndex 0 <<< 1 ||| 1

/-- One round of the loop that fills `GF256_EXP_TABLE`. -/
def next (x : UInt8) : UInt8 :=
  let next := x.toNat * 2
  UInt8.ofNat (if 256 ≤ next then next ^^^ polynomial else next)

/-- The entries of that loop. -/
def power : Nat → UInt8
  | 0 => 1
  | j + 1 => next (power j)

/-- `GF256_EXP_TABLE`. -/
def expTable (j : Nat) : UInt8 :=
  if j < 255 then power j
  else if j = 255 then power 0
  else if j < 2 * 255 then power (j % 255)
  else if j = 2 * 255 then 1
  else 0

/-- `GF256_LOG_TABLE` after `n` rounds. The context is static: what is not written is zero. -/
def logLoop : Nat → UInt8 → Nat
  | 0 => Function.update (fun _ => 0) 0 512
  | n + 1 => Function.update (logLoop n) (expTable (n + 1)) (n + 1)

/-- `GF256_LOG_TABLE`. The logarithm of 1 is written last, as 255. -/
def logTable : UInt8 → Nat := Function.update (logLoop 254) (expTable 255) 255

/-- `gf256_mul` through `GF256_MUL_TABLE`. -/
def mul (x y : UInt8) : UInt8 :=
  if y = 0 then 0
  else if x = 0 then 0
  else
    let logY := UInt8.ofNat (logTable y)
    expTable (logTable x + logY.toNat)

/-- `gf256_div` through `GF256_DIV_TABLE`. -/
def div (x y : UInt8) : UInt8 :=
  if y = 0 then 0
  else if x = 0 then 0
  else
    let logYn := 255 - UInt8.ofNat (logTable y)
    expTable (logTable x + logYn.toNat)

/-- `gf256_inv` through `GF256_INV_TABLE`. -/
def inv (x : UInt8) : UInt8 := div 1 x

/-- `gf256_sqr` through `GF256_SQR_TABLE`. -/
def sqr (x : UInt8) : UInt8 := mul x x

/-! ## Powers -/

/-- Doubling is a shift, with the polynomial where a bit is carried out. -/
theorem next_eq (x : UInt8) :
    next x = x <<< 1 ^^^ if x.toBitVec.msb then 0x4d else 0 := by
  revert x
  exact forall_byte (by decide +kernel)

theorem next_xor (x y : UInt8) : next (x ^^^ y) = next x ^^^ next y := by
  rw [next_eq, next_eq, next_eq, UInt8.toBitVec_xor, BitVec.msb_xor, UInt8.shiftLeft_xor]
  cases x.toBitVec.msb <;> cases y.toBitVec.msb
  · simp
  · simp [UInt8.xor_assoc]
  · simp only [Bool.true_xor, Bool.not_false, if_true]
    rw [UInt8.xor_assoc, UInt8.xor_assoc, UInt8.xor_comm (y <<< 1)]
    simp
  · have hcancel : (0x4d : UInt8) ^^^ (y <<< (1 : UInt8) ^^^ (0x4d : UInt8)) =
        y <<< (1 : UInt8) := by
      rw [UInt8.xor_comm (y <<< (1 : UInt8)), ← UInt8.xor_assoc]
      simp
    simp [UInt8.xor_assoc, hcancel]

@[simp] theorem next_zero : next 0 = 0 := by decide

theorem next_injective : Function.Injective next := by
  intro x y h
  have hkernel : ∀ z : UInt8, next z = 0 → z = 0 := forall_byte (by decide +kernel)
  have hxor : next (x ^^^ y) = 0 := by
    rw [next_xor, h]
    simp
  exact UInt8.xor_eq_zero_iff.mp (hkernel _ hxor)

theorem iterate_xor (n : Nat) (x y : UInt8) :
    next^[n] (x ^^^ y) = next^[n] x ^^^ next^[n] y := by
  induction n generalizing x y with
  | zero => rfl
  | succ n ih => rw [Function.iterate_succ_apply, next_xor, ih]; rfl

theorem iterate_zero (n : Nat) : next^[n] 0 = 0 :=
  Function.iterate_fixed next_zero n

theorem power_eq (n : Nat) : power n = next^[n] 1 := by
  induction n with
  | zero => rfl
  | succ n ih => rw [Function.iterate_succ_apply', ← ih]; rfl

theorem iterate_power (m n : Nat) : next^[m] (power n) = power (m + n) := by
  rw [power_eq, power_eq, Function.iterate_add_apply]

theorem power_ne_zero (n : Nat) : power n ≠ 0 := by
  rw [power_eq, ← iterate_zero n]
  exact (next_injective.iterate n).ne (by decide)

theorem power_period : power 255 = 1 := by decide +kernel

theorem power_ne_one : ∀ n < 255, 0 < n → power n ≠ 1 := by decide +kernel

theorem power_add_period (n : Nat) : power (n + 255) = power n := by
  rw [← iterate_power, power_period, power_eq]

theorem power_mod (n : Nat) : power (n % 255) = power n :=
  Function.Periodic.map_mod_nat power_add_period n

theorem power_injOn {m n : Nat} (hm : m < 255) (hn : n < 255) (h : power m = power n) :
    m = n := by
  wlog hle : m ≤ n generalizing m n
  · exact (this hn hm h.symm (by omega)).symm
  by_contra hne
  refine power_ne_one (n - m) (by omega) (by omega) ?_
  apply next_injective.iterate m
  rw [iterate_power, Nat.add_sub_cancel' hle, ← h, power_eq]

/-- Every byte but zero is a power of the root. -/
theorem exists_power {x : UInt8} (hx : x ≠ 0) : ∃ n, 0 < n ∧ n ≤ 255 ∧ power n = x := by
  let f : Fin 255 → {x : UInt8 // x ≠ 0} := fun n => ⟨power n, power_ne_zero n⟩
  have hinj : Function.Injective f := by
    intro m n h
    exact Fin.ext (power_injOn m.isLt n.isLt (congrArg Subtype.val h))
  have hcard : Fintype.card (Fin 255) = Fintype.card {x : UInt8 // x ≠ 0} := by
    rw [Fintype.card_fin]
    decide +kernel
  obtain ⟨n, hn⟩ := ((Fintype.bijective_iff_injective_and_card f).mpr ⟨hinj, hcard⟩).2 ⟨x, hx⟩
  have hpower : power n = x := congrArg Subtype.val hn
  by_cases hzero : (n : Nat) = 0
  · exact ⟨255, by decide, le_rfl, by rw [← hpower, hzero, power_period]; rfl⟩
  · exact ⟨n, by omega, by omega, hpower⟩

/-! ## Tables -/

theorem expTable_eq {j : Nat} (hj : j ≤ 510) : expTable j = power j := by
  unfold expTable
  split_ifs with h₁ h₂ h₃ h₄
  · rfl
  · rw [h₂, power_period]; rfl
  · exact power_mod j
  · rw [h₄, ← power_mod]; rfl
  · omega

/-- After `n` rounds a byte that is one of the powers so far has one of its logarithms. -/
theorem logLoop_spec (n : Nat) (hn : n ≤ 255) {x : UInt8}
    (h : ∃ k, 0 < k ∧ k ≤ n ∧ power k = x) :
    0 < logLoop n x ∧ logLoop n x ≤ n ∧ power (logLoop n x) = x := by
  induction n with
  | zero =>
      obtain ⟨k, hpos, hle, -⟩ := h
      omega
  | succ n ih =>
      show 0 < Function.update (logLoop n) _ _ x ∧ _
      have hexp : expTable (n + 1) = power (n + 1) := expTable_eq (by omega)
      by_cases heq : x = expTable (n + 1)
      · have hlog : logLoop (n + 1) x = n + 1 := by
          show Function.update (logLoop n) _ _ x = _
          rw [heq, Function.update_self]
        rw [hlog]
        refine ⟨?_, le_rfl, ?_⟩
        · rw [heq, Function.update_self]
          omega
        · rw [heq, hexp]
      · have hlog : logLoop (n + 1) x = logLoop n x := Function.update_of_ne heq _ _
        obtain ⟨k, hpos, hle, hk⟩ := h
        have hkn : k ≤ n := by
          rcases Nat.lt_or_ge n k with hlt | hge
          · obtain rfl : k = n + 1 := by omega
            exact absurd (hexp ▸ hk.symm) heq
          · exact hge
        obtain ⟨h₁, h₂, h₃⟩ := ih (by omega) ⟨k, hpos, hkn, hk⟩
        rw [Function.update_of_ne heq, hlog]
        exact ⟨h₁, by omega, h₃⟩

theorem logTable_spec {x : UInt8} (hx : x ≠ 0) :
    0 < logTable x ∧ logTable x ≤ 255 ∧ power (logTable x) = x :=
  logLoop_spec 255 le_rfl (exists_power hx)

theorem power_logTable {x : UInt8} (hx : x ≠ 0) : power (logTable x) = x := (logTable_spec hx).2.2

theorem logTable_le {x : UInt8} (hx : x ≠ 0) : logTable x ≤ 255 := (logTable_spec hx).2.1

theorem toNat_logTable {x : UInt8} (hx : x ≠ 0) :
    (UInt8.ofNat (logTable x)).toNat = logTable x := by
  rw [UInt8.toNat_ofNat']
  exact Nat.mod_eq_of_lt (by have := logTable_le hx; omega)

@[simp] protected theorem mul_zero (x : UInt8) : mul x 0 = 0 := rfl

@[simp] protected theorem zero_mul (x : UInt8) : mul 0 x = 0 := by simp [mul]

/-- A product by a power is that many doublings. -/
theorem mul_power (x : UInt8) (n : Nat) : mul x (power n) = next^[n] x := by
  by_cases hx : x = 0
  · rw [hx, Gf256.zero_mul, iterate_zero]
  · have hn := power_ne_zero n
    have hxle := logTable_le hx
    have hnle := logTable_le hn
    unfold mul
    rw [if_neg hn, if_neg hx]
    simp only [toNat_logTable hn]
    rw [expTable_eq (by omega), ← iterate_power, power_logTable hn, iterate_power, Nat.add_comm,
      ← iterate_power, power_logTable hx]

theorem power_mul_power (m n : Nat) : mul (power m) (power n) = power (n + m) := by
  rw [mul_power, iterate_power]

/-- A quotient by a power times the power. -/
theorem div_mul_power (x : UInt8) (n : Nat) : mul (div x (power n)) (power n) = x := by
  have hn := power_ne_zero n
  by_cases hx : x = 0
  · simp [hx, div, hn]
  · have hxle := logTable_le hx
    have hnle := logTable_le hn
    have hsub : (255 - UInt8.ofNat (logTable (power n))).toNat = 255 - logTable (power n) := by
      rw [UInt8.toNat_sub_of_le]
      · rw [toNat_logTable hn]
        rfl
      · rw [UInt8.le_iff_toNat_le, toNat_logTable hn]
        exact hnle
    have hdiv : div x (power n) = power (logTable x + (255 - logTable (power n))) := by
      unfold div
      rw [if_neg hn, if_neg hx]
      simp only [hsub]
      exact expTable_eq (by omega)
    calc mul (div x (power n)) (power n)
        = mul (power (logTable x + (255 - logTable (power n)))) (power (logTable (power n))) := by
          rw [hdiv, power_logTable hn]
      _ = power (logTable x + 255) := by
          rw [power_mul_power]
          congr 1
          omega
      _ = x := by rw [power_add_period, power_logTable hx]

end Gf256

/-! ## The field -/

/-- A byte as `gf256.h` calculates with it. -/
@[ext]
structure Gf256 where
  byte : UInt8
deriving DecidableEq

namespace Gf256

instance : Zero Gf256 := ⟨⟨0⟩⟩

instance : One Gf256 := ⟨⟨1⟩⟩

/-- `gf256_add`. -/
instance : Add Gf256 := ⟨fun x y => ⟨x.byte ^^^ y.byte⟩⟩

/-- Every element is its own negative. -/
instance : Neg Gf256 := ⟨fun x => x⟩

instance : Sub Gf256 := ⟨fun x y => ⟨x.byte ^^^ y.byte⟩⟩

instance : Mul Gf256 := ⟨fun x y => ⟨mul x.byte y.byte⟩⟩

instance : Div Gf256 := ⟨fun x y => ⟨div x.byte y.byte⟩⟩

instance : Inv Gf256 := ⟨fun x => ⟨inv x.byte⟩⟩

@[simp] theorem byte_zero : (0 : Gf256).byte = 0 := rfl

@[simp] theorem byte_one : (1 : Gf256).byte = 1 := rfl

@[simp] theorem byte_add (x y : Gf256) : (x + y).byte = x.byte ^^^ y.byte := rfl

@[simp] theorem byte_sub (x y : Gf256) : (x - y).byte = x.byte ^^^ y.byte := rfl

@[simp] theorem byte_neg (x : Gf256) : (-x).byte = x.byte := rfl

@[simp] theorem byte_mul (x y : Gf256) : (x * y).byte = mul x.byte y.byte := rfl

@[simp] theorem byte_div (x y : Gf256) : (x / y).byte = div x.byte y.byte := rfl

@[simp] theorem byte_inv (x : Gf256) : (x⁻¹).byte = inv x.byte := rfl

protected theorem mul_comm (x y : UInt8) : mul x y = mul y x := by
  by_cases hx : x = 0
  · simp [hx]
  by_cases hy : y = 0
  · simp [hy]
  obtain ⟨m, -, -, rfl⟩ := exists_power hx
  obtain ⟨n, -, -, rfl⟩ := exists_power hy
  rw [power_mul_power, power_mul_power, Nat.add_comm]

protected theorem mul_assoc (x y z : UInt8) : mul (mul x y) z = mul x (mul y z) := by
  by_cases hy : y = 0
  · simp [hy]
  by_cases hz : z = 0
  · simp [hz]
  obtain ⟨m, -, -, rfl⟩ := exists_power hy
  obtain ⟨n, -, -, rfl⟩ := exists_power hz
  rw [power_mul_power, mul_power, mul_power, mul_power, Function.iterate_add_apply]

theorem mul_xor (x y z : UInt8) : mul (x ^^^ y) z = mul x z ^^^ mul y z := by
  by_cases hz : z = 0
  · simp [hz]
  obtain ⟨n, -, -, rfl⟩ := exists_power hz
  rw [mul_power, mul_power, mul_power, iterate_xor]

protected theorem mul_one (x : UInt8) : mul x 1 = x := mul_power x 0

theorem div_mul {y : UInt8} (hy : y ≠ 0) (x : UInt8) : mul (div x y) y = x := by
  obtain ⟨n, -, -, rfl⟩ := exists_power hy
  exact div_mul_power x n

theorem inv_mul {x : UInt8} (hx : x ≠ 0) : mul (inv x) x = 1 := div_mul hx 1

/-- Dividing is multiplying by the inverse, also where the divisor is zero. -/
protected theorem div_eq_mul_inv (x y : UInt8) : div x y = mul x (inv y) := by
  by_cases hy : y = 0
  · simp [hy, div, inv]
  calc div x y = mul (div x y) (mul (inv y) y) := by rw [inv_mul hy, Gf256.mul_one]
    _ = mul (mul (div x y) y) (inv y) := by rw [Gf256.mul_comm (inv y), Gf256.mul_assoc]
    _ = mul x (inv y) := by rw [div_mul hy]

/-- **The tables of `gf256_init` make the bytes a field.** -/
instance : Field Gf256 where
  add_assoc x y z := Gf256.ext (UInt8.xor_assoc ..)
  zero_add x := Gf256.ext (by simp)
  add_zero x := Gf256.ext (by simp)
  add_comm x y := Gf256.ext (UInt8.xor_comm ..)
  neg_add_cancel x := Gf256.ext (by simp)
  sub_eq_add_neg x y := rfl
  nsmul := nsmulRec
  zsmul := zsmulRec
  mul_assoc x y z := Gf256.ext (Gf256.mul_assoc ..)
  one_mul x := Gf256.ext (by simp [Gf256.mul_comm 1, Gf256.mul_one])
  mul_one x := Gf256.ext (Gf256.mul_one _)
  zero_mul x := Gf256.ext (Gf256.zero_mul _)
  mul_zero x := Gf256.ext (Gf256.mul_zero x.byte)
  mul_comm x y := Gf256.ext (Gf256.mul_comm ..)
  left_distrib x y z := Gf256.ext (by simp [Gf256.mul_comm x.byte, mul_xor])
  right_distrib x y z := Gf256.ext (mul_xor ..)
  exists_pair_ne := ⟨0, 1, by decide⟩
  inv_zero := rfl
  mul_inv_cancel x hx := Gf256.ext (by
    have hbyte : x.byte ≠ 0 := fun h => hx (Gf256.ext h)
    simp [Gf256.mul_comm x.byte, inv_mul hbyte])
  div_eq_mul_inv x y := Gf256.ext (Gf256.div_eq_mul_inv ..)
  nnqsmul := _
  nnqsmul_def _ _ := rfl
  qsmul := _
  qsmul_def _ _ := rfl

end Gf256

end FecRelay
