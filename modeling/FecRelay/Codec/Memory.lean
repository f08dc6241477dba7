import FecRelay.Codec.Gf256
import Mathlib.Algebra.Module.LinearMap.Defs
import Mathlib.Algebra.Module.Pi
import Mathlib.Algebra.Module.Basic
import Mathlib.Data.List.GetD

/-!
# Buffers of field elements

The bulk operations of `gf256.cpp` on buffers, byte by byte, and `GrowZeroPadded`. A buffer
stands for the vector of its bytes with zeros after them, on which the operations are linear.
-/

namespace FecRelay

/-- The vector that a buffer stands for. -/
def vec (buffer : Bytes) (i : Nat) : Gf256 := ⟨buffer.getD i 0⟩

/-- `gf256_add_mem(x, y, bytes of y)`. -/
def addMem : Bytes → Bytes → Bytes
  | x :: xs, y :: ys => (x ^^^ y) :: addMem xs ys
  | xs, _ => xs

/-- `gf256_muladd_mem(z, y, x, bytes of x)`. -/
def muladdMem : Bytes → UInt8 → Bytes → Bytes
  | z :: zs, y, x :: xs => (z ^^^ Gf256.mul x y) :: muladdMem zs y xs
  | zs, _, _ => zs

/-- `gf256_mul_mem(z, x, y, bytes of x)`. -/
def mulMem (x : Bytes) (y : UInt8) : Bytes := x.map fun x => Gf256.mul x y

/-- `GrowZeroPadded`. -/
def growZeroPadded (buffer : Bytes) (bytes : Nat) : Bytes :=
  buffer ++ List.replicate (bytes - buffer.length) 0

@[simp] theorem vec_nil : vec [] = 0 := by
  funext i
  simp [vec]
  rfl

@[simp] theorem vec_cons_zero (b : UInt8) (bs : Bytes) : vec (b :: bs) 0 = ⟨b⟩ := rfl

@[simp] theorem vec_cons_succ (b : UInt8) (bs : Bytes) (i : Nat) :
    vec (b :: bs) (i + 1) = vec bs i := by simp [vec]

/-- Nothing follows a buffer but zeros. -/
theorem vec_of_le {buffer : Bytes} {i : Nat} (h : buffer.length ≤ i) : vec buffer i = 0 := by
  rw [vec, List.getD_eq_default _ _ h]
  rfl

/-- The first bytes of a vector. -/
theorem eq_take_of_vec {x y : Bytes} (hlength : y.length ≤ x.length) (h : vec x = vec y) :
    x.take y.length = y := by
  refine List.ext_getElem (by simpa using hlength) fun i hx hy => ?_
  have hi := congrArg Gf256.byte (congrFun h i)
  have hix : i < x.length := by omega
  simpa [vec, hix, hy] using hi

/-- The first `n` entries of a vector. -/
def upTo (n : Nat) : (Nat → Gf256) →ₗ[Gf256] Nat → Gf256 where
  toFun f i := if i < n then f i else 0
  map_add' f g := by
    funext i
    by_cases hi : i < n <;> simp [hi]
  map_smul' a f := by
    funext i
    by_cases hi : i < n <;> simp [hi]

theorem upTo_apply (n : Nat) (f : Nat → Gf256) (i : Nat) :
    upTo n f i = if i < n then f i else 0 := rfl

/-- A buffer that is not longer is not cut. -/
theorem upTo_vec {buffer : Bytes} {n : Nat} (h : buffer.length ≤ n) :
    upTo n (vec buffer) = vec buffer := by
  funext i
  rw [upTo_apply]
  split
  · rfl
  · rw [vec_of_le (by omega)]

theorem vec_take (buffer : Bytes) (n : Nat) : vec (buffer.take n) = upTo n (vec buffer) := by
  funext i
  rw [upTo_apply]
  split
  next hi => simp [vec, List.getD_eq_getElem?_getD, hi]
  next hi => exact vec_of_le (by rw [List.length_take]; omega)

/-! ## Operations -/

@[simp] theorem length_addMem (x y : Bytes) : (addMem x y).length = x.length := by
  induction x generalizing y with
  | nil => cases y <;> rfl
  | cons x xs ih => cases y <;> simp [addMem, ih]

@[simp] theorem length_muladdMem (z : Bytes) (y : UInt8) (x : Bytes) :
    (muladdMem z y x).length = z.length := by
  induction z generalizing x with
  | nil => cases x <;> rfl
  | cons z zs ih => cases x <;> simp [muladdMem, ih]

@[simp] theorem length_mulMem (x : Bytes) (y : UInt8) : (mulMem x y).length = x.length := by
  simp [mulMem]

@[simp] theorem length_growZeroPadded (buffer : Bytes) (bytes : Nat) :
    (growZeroPadded buffer bytes).length = max buffer.length bytes := by
  simp [growZeroPadded]
  omega

/-- A multiple of a buffer that fits is added. -/
theorem vec_muladdMem {z x : Bytes} (h : x.length ≤ z.length) (y : UInt8) :
    vec (muladdMem z y x) = vec z + (⟨y⟩ : Gf256) • vec x := by
  funext i
  induction z generalizing x i with
  | nil =>
      have hx : x = [] := List.eq_nil_of_length_eq_zero (by simpa using h)
      simp [hx, muladdMem]
  | cons z zs ih =>
      cases x with
      | nil => simp [muladdMem]
      | cons x xs =>
          cases i with
          | zero =>
              show (⟨z ^^^ Gf256.mul x y⟩ : Gf256) = ⟨z⟩ + ⟨y⟩ * ⟨x⟩
              rw [mul_comm (⟨y⟩ : Gf256)]
              rfl
          | succ i => simpa [muladdMem] using ih (by simpa using h) i

theorem muladdMem_one (z x : Bytes) : muladdMem z 1 x = addMem z x := by
  induction z generalizing x with
  | nil => cases x <;> rfl
  | cons z zs ih =>
      cases x with
      | nil => rfl
      | cons x xs => rw [muladdMem, addMem, Gf256.mul_one, ih]

theorem vec_addMem {x y : Bytes} (h : y.length ≤ x.length) :
    vec (addMem x y) = vec x + vec y := by
  rw [← muladdMem_one, vec_muladdMem h]
  show vec x + (1 : Gf256) • vec y = vec x + vec y
  rw [one_smul]

/-- A sum that may be longer than the buffer is cut to its length. -/
theorem vec_addMem_take (x y : Bytes) :
    vec (addMem x (y.take x.length)) = vec x + upTo x.length (vec y) := by
  rw [vec_addMem (by rw [List.length_take]; omega), vec_take]

theorem vec_mulMem (x : Bytes) (y : UInt8) : vec (mulMem x y) = (⟨y⟩ : Gf256) • vec x := by
  funext i
  show (⟨(x.map fun x => Gf256.mul x y).getD i 0⟩ : Gf256) = ⟨y⟩ * ⟨x.getD i 0⟩
  rw [mul_comm (⟨y⟩ : Gf256)]
  refine Gf256.ext ?_
  show _ = Gf256.mul (x.getD i 0) y
  rcases Nat.lt_or_ge i x.length with hlt | hge
  · simp [hlt]
  · simp [hge]

@[simp] theorem vec_growZeroPadded (buffer : Bytes) (bytes : Nat) :
    vec (growZeroPadded buffer bytes) = vec buffer := by
  funext i
  unfold vec growZeroPadded
  congr 1
  rcases Nat.lt_or_ge i buffer.length with hlt | hge
  · rw [List.getD_append _ _ _ _ hlt]
  · rw [List.getD_append_right _ _ _ _ hge, List.getD_eq_default _ _ hge]
    simp [List.getD_eq_getElem?_getD]

end FecRelay
