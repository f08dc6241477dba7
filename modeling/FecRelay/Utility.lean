import FecRelay.Base.Method
import FecRelay.Base.PriorityBag
import Mathlib.Data.List.Lex

/-!
# Shared constants, bytes, queues and the ways a call can fail

The contents of `utility.hpp` that the other modules use: the packet size
budget, `ENFORCE`, `Bytes` with the comparison `std::less` gives it, the two
queues with their `pop_value`, the clock, and `ceil` of a rational.
-/

namespace FecRelay

open FecRelay.Base

/-! ## Failures -/

/-- What ends a call early: the exceptions the code throws, and the undefined
operations C++ leaves to the caller to avoid. -/
inductive Fault where
  /-- `ENFORCE(expr)` with `expr` false. -/
  | enforce (expr : String)
  /-- `ENFORCE0(expr)` with `expr == res`, `res != 0`. -/
  | enforce0 (expr : String) (res : Nat)
  | runtimeError (what : String)
  /-- `enforce_ec(ec)` with a non-zero `error_code`. -/
  | systemError (ec : String)
  | divisionByZero
  | signedOverflow
  | outOfBounds
  /-- A source loop that had not ended after the number of rounds asked for. -/
  | diverges
  deriving DecidableEq, Repr

/-- A pure computation that may fail. -/
abbrev Checked (α : Type) := Except Fault α

/-- `ENFORCE(_expr_)`. -/
def enforce (holds : Bool) (expr : String) : Checked Unit :=
  if holds then .ok () else .error (.enforce expr)

@[simp] theorem enforce_ok_iff {holds : Bool} {expr : String} :
    enforce holds expr = .ok () ↔ holds = true := by
  cases holds <;> simp [enforce]

@[simp] theorem enforce_true (expr : String) : enforce true expr = .ok () := rfl

@[simp] theorem enforce_false (expr : String) :
    enforce false expr = .error (.enforce expr) := rfl

/-- Integer division as the hardware sees it. -/
def divide (x y : Int) : Checked Int :=
  if y = 0 then .error .divisionByZero else .ok (x / y)

theorem divide_of_pos {x y : Int} (h : 0 < y) : divide x y = .ok (x / y) := by
  unfold divide
  rw [if_neg (by omega)]

/-! ## Sizes -/

def maxPacketSize : Nat := 1400
def maxBlockPacketSize : Nat := maxPacketSize - 6 * 4
def maxStreamPacketSize : Nat := maxPacketSize - 4 * 4

/-- The greatest `int`. -/
def intMax : Int := 2 ^ 31 - 1

/-- Reduction of an unsigned 32-bit expression. -/
def u32 (n : Nat) : Nat := n % 2 ^ 32

theorem u32_of_lt {n : Nat} (h : n < 2 ^ 32) : u32 n = n := Nat.mod_eq_of_lt h

theorem u32_lt (n : Nat) : u32 n < 2 ^ 32 := Nat.mod_lt _ (by norm_num)

/-! ## Bytes -/

/-- `std::vector<char>`. -/
abbrev Bytes := List UInt8

/-- The value of a `char`, which is signed on the target. -/
def charValue (b : UInt8) : Int := if b.toNat < 128 then b.toNat else b.toNat - 256

theorem charValue_injective : Function.Injective charValue := by
  intro a b h
  have ha := a.toNat_lt
  have hb := b.toNat_lt
  apply UInt8.toNat_inj.mp
  unfold charValue at h
  split at h <;> split at h <;> omega

/-- `std::less<Bytes>`: `std::lexicographical_compare` on the `char` values. -/
def bytesLess : Bytes → Bytes → Bool
  | _, [] => false
  | [], _ :: _ => true
  | x :: xs, y :: ys =>
      if charValue x < charValue y then true
      else if charValue y < charValue x then false
      else bytesLess xs ys

@[simp] theorem bytesLess_nil (x : Bytes) : bytesLess x [] = false := by cases x <;> rfl

@[simp] theorem bytesLess_nil_cons (y : UInt8) (ys : Bytes) :
    bytesLess [] (y :: ys) = true := rfl

theorem bytesLess_cons (x y : UInt8) (xs ys : Bytes) :
    bytesLess (x :: xs) (y :: ys) =
      if charValue x < charValue y then true
      else if charValue y < charValue x then false
      else bytesLess xs ys := rfl

@[simp] theorem bytesLess_cons_self (x : UInt8) (xs ys : Bytes) :
    bytesLess (x :: xs) (x :: ys) = bytesLess xs ys := by
  simp [bytesLess_cons]

/-- A common prefix does not decide the comparison. -/
theorem bytesLess_append_left (w xs ys : Bytes) :
    bytesLess (w ++ xs) (w ++ ys) = bytesLess xs ys := by
  induction w with
  | nil => rfl
  | cons x w ih => simpa using ih

/-- The comparison is the lexicographic order of the lists of `char` values. -/
theorem bytesLess_iff (x y : Bytes) :
    bytesLess x y = true ↔ x.map charValue < y.map charValue := by
  induction x generalizing y with
  | nil => cases y <;> simp
  | cons a xs ih =>
      cases y with
      | nil => simp
      | cons b ys =>
          rw [bytesLess_cons, List.map_cons, List.map_cons, List.cons_lt_cons_iff]
          by_cases hlt : charValue a < charValue b
          · simp [hlt]
          · by_cases hgt : charValue b < charValue a
            · have hne : charValue a ≠ charValue b := by omega
              simp [hlt, hgt, hne]
            · have heq : charValue a = charValue b := by omega
              simp [heq, ih]

theorem bytesLess_strictWeak : PriorityBag.StrictWeak bytesLess where
  irrefl x := by
    rw [Bool.eq_false_iff, ne_eq, bytesLess_iff]
    exact lt_irrefl _
  trans x y z hxy hyz :=
    (bytesLess_iff x z).mpr
      (lt_trans ((bytesLess_iff x y).mp hxy) ((bytesLess_iff y z).mp hyz))
  negTrans x y z hxy hyz := by
    rw [Bool.eq_false_iff, ne_eq, bytesLess_iff, not_lt] at *
    exact le_trans hyz hxy

/-- Two byte strings that do not exceed one another are equal. -/
theorem eq_of_not_bytesLess {x y : Bytes} (hxy : bytesLess x y = false)
    (hyx : bytesLess y x = false) : x = y := by
  rw [Bool.eq_false_iff, ne_eq, bytesLess_iff, not_lt] at hxy hyx
  exact charValue_injective.list_map (le_antisymm hyx hxy)

/-! ## Queues -/

/-- `movable_priority_queue<T, std::vector<T>, Compare>`. -/
structure MovablePriorityQueue (α : Type) (comp : α → α → Bool) where
  c : List α := []

namespace MovablePriorityQueue

variable {α : Type} {comp : α → α → Bool}

def empty (q : MovablePriorityQueue α comp) : Bool := q.c.isEmpty

def push (x : α) : Method Fault (MovablePriorityQueue α comp) Unit :=
  modify fun q => ⟨q.c ++ [x]⟩

/-- `top()`, which only a non-empty queue has. -/
def top (q : MovablePriorityQueue α comp) : Option α := PriorityBag.top comp q.c

/-- `pop_value()`. -/
def popValue [BEq α] : Method Fault (MovablePriorityQueue α comp) α := do
  let q ← get
  match q.top with
  | none => throw (.runtimeError "pop_value: empty queue!")
  | some value =>
      set (⟨q.c.erase value⟩ : MovablePriorityQueue α comp)
      pure value

@[simp] theorem push_apply (x : α) (q : MovablePriorityQueue α comp) :
    push x q = .ok () ⟨q.c ++ [x]⟩ := rfl

theorem popValue_of_top [BEq α] {q : MovablePriorityQueue α comp} {value : α}
    (h : q.top = some value) : popValue q = .ok value ⟨q.c.erase value⟩ := by
  unfold popValue
  rw [Method.bind_of_ok (Method.get_apply q)]
  simp only [h]
  rfl

theorem popValue_of_empty [BEq α] {q : MovablePriorityQueue α comp} (h : q.c = []) :
    popValue q = .error (.runtimeError "pop_value: empty queue!") q := by
  unfold popValue
  rw [Method.bind_of_ok (Method.get_apply q)]
  have htop : q.top = none := PriorityBag.top_eq_none_iff.mpr h
  simp only [htop]
  rfl

/-- `pop_value` returns the top and takes it off the queue. -/
theorem popValue_ok_iff [BEq α] {q q' : MovablePriorityQueue α comp} {value : α} :
    popValue q = .ok value q' ↔ q.top = some value ∧ q' = ⟨q.c.erase value⟩ := by
  cases htop : q.top with
  | none =>
      rw [popValue_of_empty (PriorityBag.top_eq_none_iff.mp htop)]
      simp
  | some w =>
      rw [popValue_of_top htop]
      constructor
      · intro h; cases h; exact ⟨rfl, rfl⟩
      · rintro ⟨hw, rfl⟩; cases hw; rfl

end MovablePriorityQueue

/-- `pop_value(std::queue<X>& q)`, on the queue as a list with its front first. -/
def popFront {α : Type} : Method Fault (List α) α := fun q =>
  match q with
  | [] => .error (.runtimeError "pop_value: empty queue!") []
  | value :: rest => .ok value rest

theorem popFront_ok_iff {α : Type} {q q' : List α} {value : α} :
    popFront q = .ok value q' ↔ q = value :: q' := by
  cases q with
  | nil => simp [popFront]
  | cons x xs =>
      constructor
      · intro h; cases h; rfl
      · intro h; cases h; rfl

/-! ## Time

A time point is the number of nanoseconds since the clock's epoch. -/

/-- A `time_point_t` that may be `FAR_FUTURE`. The sentinel is the greatest time
point, which no clock reading reaches and no finite delay adds up to. -/
inductive Deadline where
  | due (t : Int)
  | farFuture
  deriving DecidableEq, Repr

/-- `next <= now`. -/
def Deadline.reached : Deadline → Int → Bool
  | .due t, now => decide (t ≤ now)
  | .farFuture, _ => false

@[simp] theorem Deadline.reached_due (t now : Int) :
    (Deadline.due t).reached now = decide (t ≤ now) := rfl

@[simp] theorem Deadline.reached_farFuture (now : Int) :
    Deadline.farFuture.reached now = false := rfl

/-- Clock readings that start no earlier than the epoch and never go backwards. -/
def NeverBackwards (readings : List Int) : Prop := (0 :: readings).Pairwise (· ≤ ·)

theorem NeverBackwards.of_snoc {ts : List Int} {t : Int}
    (h : NeverBackwards (ts ++ [t])) : NeverBackwards ts := by
  unfold NeverBackwards at *
  rw [← List.cons_append, List.pairwise_append] at h
  exact h.1

theorem NeverBackwards.le_last {ts : List Int} {t : Int}
    (h : NeverBackwards (ts ++ [t])) : ∀ s ∈ 0 :: ts, s ≤ t := by
  unfold NeverBackwards at h
  rw [← List.cons_append, List.pairwise_append] at h
  exact fun s hs => h.2.2 s hs t (by simp)

/-! ## Rationals -/

/-- `ceil(boost::rational<Int>)`; a `Rat` is reduced with a positive denominator
just as a `boost::rational` is. -/
def ceil (r : Rat) : Int := (r.num + r.den - 1) / r.den

end FecRelay
