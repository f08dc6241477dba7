import FecRelay.Utility
import Mathlib.Data.List.Basic

/-!
# The bit set of a subwindow

`CustomBitSet<64>`: one word of bits, searched with shifts and counts of trailing zeros.
-/

namespace FecRelay

/-- `PopCount64` -/
def popCount64 (x : BitVec 64) : Nat := (List.range 64).countP x.getLsbD

/-- `TrailingZeros64`, for a word that is not zero. -/
def trailingZeros64 (x : BitVec 64) : Nat := (List.range 64).findIdx x.getLsbD

/-- `CustomBitSet<kSubwindowSize>` -/
structure CustomBitSet where
  word : BitVec 64 := 0
  deriving DecidableEq

namespace CustomBitSet

/-- `Set` -/
def set (s : CustomBitSet) (bit : Nat) : CustomBitSet := ⟨s.word ||| (1#64 <<< (bit % 64))⟩

/-- `Check` -/
def check (s : CustomBitSet) (bit : Nat) : Bool := s.word &&& (1#64 <<< (bit % 64)) != 0

/-- `RangePopcount` -/
def rangePopcount (s : CustomBitSet) (bitStart bitEnd : Nat) : Nat :=
  if bitEnd ≤ bitStart then 0
  else
    let word := s.word >>> (bitStart % 64)
    -- with one word, the end is in it or right after it
    if bitEnd / 64 = bitStart / 64 then popCount64 (word <<< (64 - (bitEnd - bitStart)))
    else popCount64 word

/-- What both searches do with the word that has the bits they look for. -/
def firstFrom (word : BitVec 64) (bitStart : Nat) : Nat :=
  let word := word >>> (bitStart % 64)
  if word ≠ 0 then bitStart + (if word.getLsbD 0 then 0 else trailingZeros64 word) else 64

/-- `FindFirstClear` -/
def findFirstClear (s : CustomBitSet) (bitStart : Nat) : Nat := firstFrom (~~~s.word) bitStart

/-- `FindFirstSet` to the end of the set. -/
def findFirstSet (s : CustomBitSet) (bitStart : Nat) : Nat := firstFrom s.word bitStart

/-! ## What the operations compute -/

theorem check_eq (s : CustomBitSet) {bit : Nat} (h : bit < 64) :
    s.check bit = s.word.getLsbD bit := by
  unfold check
  rw [Nat.mod_eq_of_lt h]
  by_cases hbit : s.word.getLsbD bit
  · rw [hbit, bne_iff_ne]
    intro hzero
    have hat := congrArg (BitVec.getLsbD · bit) hzero
    rw [BitVec.getLsbD_and, hbit] at hat
    simp [h] at hat
  · rw [Bool.not_eq_true] at hbit
    rw [hbit, bne_eq_false_iff_eq]
    refine BitVec.eq_of_getLsbD_eq fun i hi => ?_
    by_cases heq : i = bit
    · simp [heq, hbit]
    · simp [hi]
      omega

theorem check_set (s : CustomBitSet) {bit i : Nat} (hbit : bit < 64) (hi : i < 64) :
    (s.set bit).check i = (s.check i || decide (i = bit)) := by
  rw [check_eq _ hi, check_eq _ hi, set, Nat.mod_eq_of_lt hbit]
  by_cases heq : i = bit
  · simp [heq, hbit]
  · simp [heq, hi]
    omega

/-- One bit more is set. -/
theorem countP_check_set (s : CustomBitSet) {bit n : Nat} (hn : n ≤ 64) (hbit : bit < n)
    (hclear : s.check bit = false) :
    (List.range n).countP (s.set bit).check = (List.range n).countP s.check + 1 := by
  have hset : ∀ i < 64, (s.set bit).check i = (s.check i || decide (i = bit)) :=
    fun i hi => check_set s (by omega) hi
  have hsplit : List.range n =
      List.range bit ++ bit :: (List.range (n - bit - 1)).map (bit + 1 + ·) := by
    rw [← List.range'_eq_map_range, ← List.range'_succ, List.range_eq_range', List.range_eq_range',
      show n = bit + (n - bit - 1 + 1) by omega, ← List.range'_append_1]
    simp
  have hsame : ∀ l : List Nat, (∀ i ∈ l, i < 64 ∧ i ≠ bit) →
      l.countP (s.set bit).check = l.countP s.check := by
    intro l hl
    refine List.countP_congr fun i hi => ?_
    rw [hset i (hl i hi).1]
    simp [(hl i hi).2]
  rw [hsplit, List.countP_append, List.countP_append, List.countP_cons, List.countP_cons,
    hsame _ fun i hi => ?_, hsame _ fun i hi => ?_, hset bit (by omega), hclear]
  · simp
    omega
  · obtain ⟨k, hk, rfl⟩ := List.mem_map.mp hi
    have hk := List.mem_range.mp hk
    omega
  · have hi := List.mem_range.mp hi
    omega

@[simp] theorem check_empty (bit : Nat) : (⟨0#64⟩ : CustomBitSet).check bit = false := by
  simp [check]

/-- `i` is the first place at or after `a` where `p` holds, and `b` if there is none. -/
def FirstAt (p : Nat → Prop) (a b i : Nat) : Prop :=
  i ≤ b ∧ (∀ j, a ≤ j → j < i → ¬p j) ∧ (i < b → a ≤ i ∧ p i)

theorem FirstAt.congr {p q : Nat → Prop} {a b i : Nat} (h : FirstAt p a b i)
    (hpq : ∀ j < b, p j ↔ q j) : FirstAt q a b i := by
  obtain ⟨hle, hbefore, hat⟩ := h
  refine ⟨hle, fun j haj hj hq => hbefore j haj hj ((hpq j (by omega)).mpr hq), fun hlt => ?_⟩
  exact ⟨(hat hlt).1, (hpq i hlt).mp (hat hlt).2⟩

/-- The least bit of a word that is not zero. -/
theorem trailingZeros64_spec {x : BitVec 64} (h : x ≠ 0) :
    x.getLsbD (trailingZeros64 x) = true ∧ ∀ i < trailingZeros64 x, x.getLsbD i = false := by
  have hexists : ∃ i ∈ List.range 64, x.getLsbD i = true := by
    by_contra hnone
    refine h (BitVec.eq_of_getLsbD_eq fun i hi => ?_)
    have hnot := fun hbit => hnone ⟨i, List.mem_range.mpr hi, hbit⟩
    simpa using hnot
  have hlt : (List.range 64).findIdx x.getLsbD < (List.range 64).length :=
    List.findIdx_lt_length.mpr hexists
  have hat := List.findIdx_getElem (w := hlt)
  refine ⟨by simpa [trailingZeros64] using hat, fun i hi => ?_⟩
  have hbefore := List.not_of_lt_findIdx hi
  simpa using hbefore

theorem firstFrom_spec (x : BitVec 64) {bitStart : Nat} (h : bitStart < 64) :
    FirstAt (fun i => x.getLsbD i = true) bitStart 64 (firstFrom x bitStart) := by
  unfold firstFrom
  rw [Nat.mod_eq_of_lt h]
  simp only
  by_cases hzero : x >>> bitStart = 0
  · rw [if_neg (not_not.mpr hzero)]
    refine ⟨le_rfl, fun j hj _ hbit => ?_, fun hlt => absurd hlt (by omega)⟩
    have hat := congrArg (BitVec.getLsbD · (j - bitStart)) hzero
    simp only [BitVec.getLsbD_ushiftRight, Nat.add_sub_cancel' hj, hbit] at hat
    simp at hat
  · rw [if_pos hzero]
    obtain ⟨hat, hbefore⟩ := trailingZeros64_spec hzero
    have hoffset : (if (x >>> bitStart).getLsbD 0 then 0 else trailingZeros64 (x >>> bitStart)) =
        trailingZeros64 (x >>> bitStart) := by
      split
      · rename_i hfirst
        by_contra hne
        rw [hbefore 0 (by omega)] at hfirst
        cases hfirst
      · rfl
    rw [hoffset]
    generalize trailingZeros64 (x >>> bitStart) = k at hat hbefore
    rw [BitVec.getLsbD_ushiftRight] at hat
    have hlt : bitStart + k < 64 := BitVec.lt_of_getLsbD hat
    refine ⟨hlt.le, fun j hj hjk hbit => ?_, fun _ => ⟨Nat.le_add_right .., hat⟩⟩
    have hclear := hbefore (j - bitStart) (by omega)
    rw [BitVec.getLsbD_ushiftRight, Nat.add_sub_cancel' hj, hbit] at hclear
    cases hclear

theorem findFirstSet_spec (s : CustomBitSet) {bitStart : Nat} (h : bitStart < 64) :
    FirstAt (fun i => s.check i = true) bitStart 64 (s.findFirstSet bitStart) :=
  (firstFrom_spec s.word h).congr fun j hj => by rw [check_eq _ hj]

theorem findFirstClear_spec (s : CustomBitSet) {bitStart : Nat} (h : bitStart < 64) :
    FirstAt (fun i => s.check i = false) bitStart 64 (s.findFirstClear bitStart) :=
  (firstFrom_spec (~~~s.word) h).congr fun j hj => by
    rw [check_eq _ hj, BitVec.getLsbD_not]
    simp [hj]

/-- The bits that are left in a word that was shifted to the end of a range. -/
theorem popCount64_shift (x : BitVec 64) {n : Nat} (hn : n ≤ 64) :
    popCount64 (x <<< (64 - n)) = (List.range n).countP x.getLsbD := by
  have hsplit : List.range 64 = List.range (64 - n) ++ (List.range n).map (64 - n + ·) := by
    rw [← List.range_add, Nat.sub_add_cancel hn]
  unfold popCount64
  rw [hsplit, List.countP_append, List.countP_map]
  have hlow : (List.range (64 - n)).countP (x <<< (64 - n)).getLsbD = 0 := by
    rw [List.countP_eq_zero]
    intro i hi
    have hi := List.mem_range.mp hi
    simp [BitVec.getLsbD_shiftLeft, hi]
  rw [hlow, Nat.zero_add]
  refine List.countP_congr fun i hi => ?_
  have hi := List.mem_range.mp hi
  have hlt : 64 - n + i < 64 := by omega
  rw [Function.comp_apply, BitVec.getLsbD_shiftLeft, Nat.add_sub_cancel_left, decide_eq_true hlt,
    decide_eq_false (by omega), Bool.not_false, Bool.true_and, Bool.true_and]

/-- The bits of a range, counted. -/
theorem rangePopcount_spec (s : CustomBitSet) {bitStart bitEnd : Nat} (hstart : bitStart < 64)
    (hend : bitEnd ≤ 64) :
    s.rangePopcount bitStart bitEnd =
      (List.range' bitStart (bitEnd - bitStart)).countP s.check := by
  unfold rangePopcount
  by_cases hempty : bitEnd ≤ bitStart
  · rw [if_pos hempty, Nat.sub_eq_zero_of_le hempty]
    rfl
  rw [if_neg hempty, Nat.mod_eq_of_lt hstart]
  have hcount : ∀ n, n ≤ bitEnd - bitStart →
      (List.range n).countP (s.word >>> bitStart).getLsbD =
        (List.range' bitStart n).countP s.check := by
    intro n hn
    rw [List.range'_eq_map_range, List.countP_map]
    refine List.countP_congr fun i hi => ?_
    have hi := List.mem_range.mp hi
    rw [Function.comp_apply, check_eq _ (by omega), BitVec.getLsbD_ushiftRight]
  by_cases hword : bitEnd / 64 = bitStart / 64
  · simp only [if_pos hword]
    rw [popCount64_shift _ (by omega), hcount _ le_rfl]
  · simp only [if_neg hword]
    -- the range goes to the end of the word, and what was shifted in is clear
    have hlast : bitEnd = 64 := by omega
    have hsplit : List.range 64 =
        List.range (64 - bitStart) ++ (List.range bitStart).map (64 - bitStart + ·) := by
      rw [← List.range_add, Nat.sub_add_cancel hstart.le]
    have hhigh : ((List.range bitStart).map (64 - bitStart + ·)).countP
        (s.word >>> bitStart).getLsbD = 0 := by
      rw [List.countP_eq_zero]
      intro i hi
      obtain ⟨k, -, rfl⟩ := List.mem_map.mp hi
      rw [BitVec.getLsbD_ushiftRight, BitVec.getLsbD_of_ge _ _ (by omega)]
      decide
    rw [popCount64, hsplit, List.countP_append, hhigh, Nat.add_zero, hcount _ (by omega), hlast]

end CustomBitSet

end FecRelay
