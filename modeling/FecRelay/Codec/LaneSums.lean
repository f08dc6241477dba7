import FecRelay.Codec.ByteEncoder

/-!
# What the running sums hold

Packets are counted without end, and a window shows those from some number on. The sum of a
lane holds the packets of the lane from the number at which the sums were started to the next
one it will accumulate, each with the factor of the sum. Rolling a sum forward, and removing
packets that are in it, keep that.
-/

namespace FecRelay

open FecRelay.Base Finset

/-- The factor of a column in the sum with an index. -/
def sumFactor (sumIndex column : Nat) : Gf256 := (⟨getColumnValue column⟩ : Gf256) ^ sumIndex

/-- The packets `p` of a lane with numbers in a range, each with its factor. -/
def laneSum (p : Nat → Bytes) (sumIndex laneIndex q m : Nat) : Nat → Gf256 :=
  ∑ k ∈ Ico q m with k % columnLaneCount = laneIndex,
    sumFactor sumIndex (k % siamesePacketNumCount) • vec (p k)

section laneSum

variable {p : Nat → Bytes} {sumIndex laneIndex q m n : Nat}

@[simp] theorem laneSum_self : laneSum p sumIndex laneIndex q q = 0 := by
  simp [laneSum]

/-- Before its first packet a lane has nothing. -/
theorem laneSum_eq_zero (hm : m < q + columnLaneCount) (hlane : m % columnLaneCount = laneIndex) :
    laneSum p sumIndex laneIndex q m = 0 := by
  refine sum_eq_zero fun k hk => ?_
  obtain ⟨hk, hkl⟩ := mem_filter.mp hk
  have hk := mem_Ico.mp hk
  unfold columnLaneCount at hm hlane hkl
  omega

/-- One more packet of the lane. -/
theorem laneSum_next (hm : q ≤ m) (hlane : m % columnLaneCount = laneIndex) :
    laneSum p sumIndex laneIndex q (m + columnLaneCount) =
      laneSum p sumIndex laneIndex q m +
        sumFactor sumIndex (m % siamesePacketNumCount) • vec (p m) := by
  have hset : {k ∈ Ico q (m + columnLaneCount) | k % columnLaneCount = laneIndex} =
      insert m {k ∈ Ico q m | k % columnLaneCount = laneIndex} := by
    ext k
    simp only [mem_filter, mem_Ico, mem_insert]
    unfold columnLaneCount at hlane ⊢
    omega
  have hnew : m ∉ {k ∈ Ico q m | k % columnLaneCount = laneIndex} := by simp
  rw [laneSum, hset, sum_insert hnew, add_comm, laneSum]

/-- The next packet of a lane is the first one not below any number before it. -/
theorem laneSum_of_near (hn : n ≤ m) (hm : m < n + columnLaneCount)
    (hlane : m % columnLaneCount = laneIndex) :
    laneSum p sumIndex laneIndex q m = laneSum p sumIndex laneIndex q n := by
  refine sum_congr ?_ fun _ _ => rfl
  ext k
  simp only [mem_filter, mem_Ico]
  unfold columnLaneCount at hm hlane ⊢
  omega

end laneSum

namespace ByteWindow

/-- A packet is added with the factor of its column. -/
theorem vec_accumulate {sumIndex : Nat} (hsum : sumIndex < columnSumCount) (sum : Bytes)
    (original : SentPacket) :
    vec (accumulate sumIndex sum original) =
      vec sum + sumFactor sumIndex original.column • vec original.buffer := by
  have hroom : original.buffer.length ≤
      (growZeroPadded sum original.buffer.length).length := by simp
  unfold accumulate sumFactor
  dsimp only
  by_cases hzero : sumIndex = 0
  · rw [if_pos hzero, vec_addMem hroom, vec_growZeroPadded, hzero, pow_zero, one_smul]
  · rw [if_neg hzero, vec_muladdMem hroom, vec_growZeroPadded]
    congr 2
    by_cases htwo : sumIndex = 2
    · rw [if_pos htwo, htwo, sq]
      rfl
    · have hone : sumIndex = 1 := by
        unfold columnSumCount at hsum
        omega
      rw [if_neg htwo, hone, pow_one]

/-- From element `first` on, the window shows the packets from number `base + first` on. -/
structure Shows (p : Nat → Bytes) (base first : Nat) (w : ByteWindow) : Prop where
  aligned : base % columnLaneCount = 0
  element : ∀ e, first ≤ e → e < w.count →
    w.getWindowElement e = ⟨(base + e) % siamesePacketNumCount, p (base + e)⟩

/-- A sum holds what it should, up to its next element. -/
structure LaneHolds (p : Nat → Bytes) (base first q : Nat) (w : ByteWindow)
    (laneIndex sumIndex : Nat) : Prop where
  lane : (w.lanes laneIndex).nextElement sumIndex % columnLaneCount = laneIndex
  first_le : first ≤ (w.lanes laneIndex).nextElement sumIndex
  lt : (w.lanes laneIndex).nextElement sumIndex < w.count + columnLaneCount
  start : q ≤ base + (w.lanes laneIndex).nextElement sumIndex
  value : vec ((w.lanes laneIndex).sum sumIndex) =
    laneSum p sumIndex laneIndex q (base + (w.lanes laneIndex).nextElement sumIndex)

/-- All sums hold what they should. -/
def SumsHold (p : Nat → Bytes) (base first q : Nat) (w : ByteWindow) : Prop :=
  ∀ laneIndex < columnLaneCount, ∀ sumIndex < columnSumCount,
    w.LaneHolds p base first q laneIndex sumIndex

variable {p : Nat → Bytes} {base first q : Nat} {w w' : ByteWindow} {laneIndex sumIndex : Nat}

theorem accumulateLane_spec (hw : w.Shows p base first) (hsum : sumIndex < columnSumCount)
    (rounds : Nat) {element : Nat} {sum : Bytes} (hlane : element % columnLaneCount = laneIndex)
    (hfirst : first ≤ element) (hstart : q ≤ base + element)
    (hend : element + rounds * columnLaneCount < w.count + columnLaneCount)
    (hvec : vec sum = laneSum p sumIndex laneIndex q (base + element)) :
    vec (w.accumulateLane sumIndex rounds element sum) =
      laneSum p sumIndex laneIndex q (base + (element + rounds * columnLaneCount)) := by
  have haligned := hw.aligned
  induction rounds generalizing element sum with
  | zero => simpa [accumulateLane] using hvec
  | succ rounds ih =>
      have hlast : element + (rounds * columnLaneCount + columnLaneCount) <
          w.count + columnLaneCount := by simpa [Nat.succ_mul] using hend
      unfold columnLaneCount at haligned hlane hlast
      have hnumber : (base + element) % columnLaneCount = laneIndex := by
        unfold columnLaneCount
        omega
      have hnext : vec (accumulate sumIndex sum (w.getWindowElement element)) =
          laneSum p sumIndex laneIndex q (base + (element + columnLaneCount)) := by
        rw [vec_accumulate hsum, hw.element element hfirst (by omega), hvec, ← Nat.add_assoc,
          laneSum_next hstart hnumber]
      rw [accumulateLane, ih (by unfold columnLaneCount; omega) (by omega) (by omega)
        (by unfold columnLaneCount; omega) hnext]
      congr 2
      unfold columnLaneCount
      omega

/-! ## Rolling forward -/

/-- Sums may have been rolled forward, and nothing else. -/
structure Rolls (w w' : ByteWindow) : Prop where
  window : w'.toEncoderPacketWindow = w.toEncoderPacketWindow
  packets : w'.packets = w.packets
  next : ∀ laneIndex sumIndex,
    (w.lanes laneIndex).nextElement sumIndex ≤ (w'.lanes laneIndex).nextElement sumIndex
  holds : ∀ {p base first q}, w.Shows p base first → w.SumsHold p base first q →
    w'.SumsHold p base first q

theorem Rolls.refl (w : ByteWindow) : w.Rolls w := ⟨rfl, rfl, fun _ _ => le_rfl, fun _ h => h⟩

theorem Rolls.count (h : w.Rolls w') : w'.count = w.count :=
  congrArg EncoderPacketWindow.count h.window

theorem Rolls.shows (h : w.Rolls w') (hw : w.Shows p base first) : w'.Shows p base first := by
  refine ⟨hw.aligned, fun e hfirst he => ?_⟩
  rw [getWindowElement, h.packets]
  exact hw.element e hfirst (h.count ▸ he)

theorem Rolls.trans {w'' : ByteWindow} (h : w.Rolls w') (h' : w'.Rolls w'') : w.Rolls w'' :=
  ⟨h'.window.trans h.window, h'.packets.trans h.packets,
    fun l j => (h.next l j).trans (h'.next l j),
    fun hw hs => h'.holds (h.shows hw) (h.holds hw hs)⟩

/-- **`GetSum`** rolls one sum forward to an element of the window, and returns it. -/
theorem getSum_spec (w : ByteWindow) {elementEnd : Nat} (hsum : sumIndex < columnSumCount)
    (hend : elementEnd ≤ w.count) (laneIndex : Nat) :
    w.Rolls (w.getSum laneIndex sumIndex elementEnd).2 ∧
    elementEnd ≤ ((w.getSum laneIndex sumIndex elementEnd).2.lanes laneIndex).nextElement sumIndex ∧
    (w.getSum laneIndex sumIndex elementEnd).1 =
      ((w.getSum laneIndex sumIndex elementEnd).2.lanes laneIndex).sum sumIndex := by
  unfold getSum
  dsimp only
  by_cases hlt : (w.lanes laneIndex).nextElement sumIndex < elementEnd
  · rw [if_pos hlt]
    generalize hrounds : (elementEnd - (w.lanes laneIndex).nextElement sumIndex +
      columnLaneCount - 1) / columnLaneCount = rounds
    refine ⟨⟨rfl, rfl, fun l j => ?_, fun {p base first q} hw hs l hl j hj => ?_⟩, ?_, ?_⟩
    · by_cases hl : l = laneIndex
      · subst hl
        by_cases hj : j = sumIndex
        · subst hj
          simp
        · simp [hj]
      · simp [hl]
    · by_cases hat : l = laneIndex ∧ j = sumIndex
      · obtain ⟨rfl, rfl⟩ := hat
        have hold := hs l hl j hj
        have hnext := hold.lane
        have hfirst := hold.first_le
        have hstart := hold.start
        have hvec := accumulateLane_spec hw hj rounds hold.lane hold.first_le hold.start
          (by unfold columnLaneCount at hrounds ⊢; omega)
          ((vec_growZeroPadded _ (w.lanes l).longestPacket).trans hold.value)
        refine ⟨?_, ?_, ?_, ?_, ?_⟩
        all_goals simp only [Function.update_self]
        · unfold columnLaneCount at hnext ⊢
          omega
        · omega
        · show _ < w.count + _
          unfold columnLaneCount at hrounds ⊢
          omega
        · omega
        · exact hvec
      · have hold := hs l hl j hj
        have hsame : ∀ (next : Nat) (sum : Bytes),
            let lanes := Function.update w.lanes laneIndex { w.lanes laneIndex with
              nextElement := Function.update (w.lanes laneIndex).nextElement sumIndex next
              sum := Function.update (w.lanes laneIndex).sum sumIndex sum }
            (lanes l).nextElement j = (w.lanes l).nextElement j ∧
              (lanes l).sum j = (w.lanes l).sum j := by
          intro next sum
          by_cases hl : l = laneIndex
          · have hj : j ≠ sumIndex := fun heq => hat ⟨hl, heq⟩
            subst hl
            simp [hj]
          · simp [hl]
        obtain ⟨hnext, hvalue⟩ := hsame _ _
        refine ⟨?_, ?_, ?_, ?_, ?_⟩
        · exact (congrArg (· % columnLaneCount) hnext).trans hold.lane
        · exact hold.first_le.trans hnext.ge
        · exact hnext.trans_lt hold.lt
        · exact hold.start.trans (Nat.add_le_add_left hnext.ge _)
        · show vec (EncoderColumnLane.sum _ j) = laneSum p j l q (base + _)
          rw [hvalue, hold.value, hnext]
    · simp only [Function.update_self]
      unfold columnLaneCount at hrounds ⊢
      omega
    · simp only [Function.update_self]
  · rw [if_neg hlt]
    exact ⟨Rolls.refl w, not_lt.mp hlt, rfl⟩

/-- A sum that was rolled to the end of the window holds all packets of its lane. -/
theorem LaneHolds.at_end (h : w.LaneHolds p base first q laneIndex sumIndex)
    (hw : w.Shows p base first)
    (hend : w.count ≤ (w.lanes laneIndex).nextElement sumIndex) :
    vec ((w.lanes laneIndex).sum sumIndex) =
      laneSum p sumIndex laneIndex q (base + w.count) := by
  have haligned := hw.aligned
  have hlane := h.lane
  have hlt := h.lt
  rw [h.value]
  refine laneSum_of_near (by omega) (by omega) ?_
  unfold columnLaneCount at haligned hlane ⊢
  omega

/-- A loop of steps that roll sums, each of which also does something that rolling keeps. -/
theorem Rolls.foldl {α : Type} (f : ByteWindow → α → ByteWindow) (Q : α → ByteWindow → Prop)
    (elementEnd : Nat) (hkeep : ∀ x w w', Q x w → w.Rolls w' → Q x w') (xs : List α)
    (hstep : ∀ w, ∀ x ∈ xs, elementEnd ≤ w.count → w.Rolls (f w x) ∧ Q x (f w x))
    (w : ByteWindow) (hend : elementEnd ≤ w.count) :
    w.Rolls (xs.foldl f w) ∧ ∀ x ∈ xs, Q x (xs.foldl f w) := by
  induction xs generalizing w with
  | nil => exact ⟨Rolls.refl w, by simp⟩
  | cons x xs ih =>
      obtain ⟨hrolls, hdone⟩ := hstep w x List.mem_cons_self hend
      obtain ⟨hrest, hall⟩ := ih (fun w y hy => hstep w y (List.mem_cons_of_mem _ hy)) (f w x)
        (hrolls.count ▸ hend)
      refine ⟨hrolls.trans hrest, fun y hy => ?_⟩
      rcases List.mem_cons.mp hy with rfl | hy
      · exact hkeep _ _ _ hdone hrest
      · exact hall y hy

/-- Before elements are removed, all sums are rolled past them. -/
theorem rollSums_spec (w : ByteWindow) {elementEnd : Nat} (hend : elementEnd ≤ w.count) :
    w.Rolls (w.rollSums elementEnd) ∧ ∀ l < columnLaneCount, ∀ j < columnSumCount,
      elementEnd ≤ ((w.rollSums elementEnd).lanes l).nextElement j := by
  let lane (l : Nat) (w : ByteWindow) : ByteWindow :=
    (List.range columnSumCount).foldl (fun w j => (w.getSum l j elementEnd).2) w
  have hlane : ∀ (w : ByteWindow) (l : Nat), elementEnd ≤ w.count → w.Rolls (lane l w) ∧
      ∀ j ∈ List.range columnSumCount, elementEnd ≤ ((lane l w).lanes l).nextElement j := by
    intro w l hend
    refine Rolls.foldl _ (fun j w => elementEnd ≤ (w.lanes l).nextElement j) elementEnd
      (fun j w w' hQ hr => hQ.trans (hr.next l j)) _ (fun w j hj hend => ?_) w hend
    obtain ⟨hrolls, hnext, -⟩ := w.getSum_spec (List.mem_range.mp hj) hend l
    exact ⟨hrolls, hnext⟩
  obtain ⟨hrolls, hall⟩ := Rolls.foldl (fun w l => lane l w)
    (fun l w => ∀ j ∈ List.range columnSumCount, elementEnd ≤ (w.lanes l).nextElement j)
    elementEnd (fun l w w' hQ hr j hj => (hQ j hj).trans (hr.next l j))
    (List.range columnLaneCount) (fun w l _ hend => hlane w l hend) w hend
  exact ⟨hrolls, fun l hl j hj => hall l (List.mem_range.mpr hl) j (List.mem_range.mpr hj)⟩

/-! ## Starting over -/

theorem getNextLaneElement_spec (element : Nat) (hl : laneIndex < columnLaneCount) :
    getNextLaneElement element laneIndex % columnLaneCount = laneIndex ∧
      element ≤ getNextLaneElement element laneIndex ∧
      getNextLaneElement element laneIndex < element + columnLaneCount := by
  unfold getNextLaneElement columnLaneCount at *
  dsimp only
  split <;> omega

/-- Sums that start over are empty. -/
theorem SumsHold.resetSums {element : Nat} (haligned : base % columnLaneCount = 0)
    (hfirst : first ≤ element) (hlt : element < w.count) :
    (w.resetSums element).SumsHold p base first (base + element) := by
  intro l hl j _
  obtain ⟨hlane, hge, hnear⟩ := getNextLaneElement_spec element hl
  refine ⟨hlane, hfirst.trans hge, ?_, Nat.add_le_add_left hge base, ?_⟩
  · show getNextLaneElement element l < w.count + columnLaneCount
    omega
  · show vec [] = laneSum p j l (base + element) (base + getNextLaneElement element l)
    rw [vec_nil, laneSum_eq_zero (by omega)]
    unfold columnLaneCount at hlane haligned ⊢
    omega

end ByteWindow

end FecRelay
