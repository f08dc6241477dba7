import FecRelay.Codec.DecoderSums
import FecRelay.Codec.LaneSums

/-!
# What the decoder's sums hold

A sum holds the packets of its lane that were there when it passed them. What it passed over
is plugged once it was recovered, so that a sum that was started for a row holds what was
received of the packets that the row covers, whatever was received, recovered and removed in
between.
-/

namespace FecRelay

open FecRelay.Base Finset

/-- The packets that were received, and nothing for the others -/
def present (p : Nat → Bytes) (got : Finset Nat) (k : Nat) : Bytes := if k ∈ got then p k else []

@[simp] theorem present_of_mem {p : Nat → Bytes} {got : Finset Nat} {k : Nat} (h : k ∈ got) :
    present p got k = p k := if_pos h

@[simp] theorem present_of_notMem {p : Nat → Bytes} {got : Finset Nat} {k : Nat} (h : k ∉ got) :
    present p got k = [] := if_neg h

/-- A sum holds the packets `f` of its lane from the number `q` on, in a window that starts at
the number `base`. -/
structure DecoderSum.Holds (f : Nat → Bytes) (base q laneIndex sumIndex : Nat) (s : DecoderSum) :
    Prop where
  start : s.elementStart = ByteWindow.getNextLaneElement (q - base) laneIndex
  lane : s.elementEnd % columnLaneCount = laneIndex
  le : s.elementStart ≤ s.elementEnd
  value : vec s.buffer = laneSum f sumIndex laneIndex q (base + s.elementEnd)
  room : ∀ k, q ≤ k → k < base + s.elementEnd → k % columnLaneCount = laneIndex →
    (f k).length ≤ s.buffer.length

theorem laneSum_congr {f g : Nat → Bytes} {sumIndex laneIndex q m : Nat}
    (h : ∀ k, q ≤ k → k < m → k % columnLaneCount = laneIndex → f k = g k) :
    laneSum f sumIndex laneIndex q m = laneSum g sumIndex laneIndex q m := by
  refine sum_congr rfl fun k hk => ?_
  obtain ⟨hk, hlane⟩ := mem_filter.mp hk
  obtain ⟨hq, hm⟩ := mem_Ico.mp hk
  rw [h k hq hm hlane]

/-- One of the packets that were nothing before. -/
theorem laneSum_fill {f g : Nat → Bytes} {sumIndex laneIndex q m k : Nat} (hq : q ≤ k) (hm : k < m)
    (hlane : k % columnLaneCount = laneIndex) (hf : f k = []) (hg : ∀ i, i ≠ k → g i = f i) :
    laneSum g sumIndex laneIndex q m = laneSum f sumIndex laneIndex q m +
      sumFactor sumIndex (k % siamesePacketNumCount) • vec (g k) := by
  have hk : k ∈ {i ∈ Ico q m | i % columnLaneCount = laneIndex} :=
    mem_filter.mpr ⟨mem_Ico.mpr ⟨hq, hm⟩, hlane⟩
  rw [laneSum, laneSum, ← add_sum_erase _ _ hk, ← add_sum_erase _ _ hk, hf, vec_nil, smul_zero,
    zero_add, add_comm]
  congr 1
  exact sum_congr rfl fun i hi => by rw [hg i (mem_erase.mp hi).1]

namespace DecoderSum.Holds

variable {f g : Nat → Bytes} {base q laneIndex sumIndex : Nat} {s : DecoderSum}

/-- Only what the sum has passed matters. -/
theorem congr (h : s.Holds f base q laneIndex sumIndex)
    (hfg : ∀ k, q ≤ k → k < base + s.elementEnd → k % columnLaneCount = laneIndex → f k = g k) :
    s.Holds g base q laneIndex sumIndex where
  start := h.start
  lane := h.lane
  le := h.le
  value := h.value.trans (laneSum_congr hfg)
  room k hq hk hlane := by
    rw [← hfg k hq hk hlane]
    exact h.room k hq hk hlane

/-- A sum that was rolled to an element, and not beyond it, holds what is before it. -/
theorem at_end {n : Nat} (h : s.Holds f base q laneIndex sumIndex)
    (haligned : base % columnLaneCount = 0) (hend : n ≤ base + s.elementEnd)
    (hnear : base + s.elementEnd < n + columnLaneCount) :
    vec s.buffer = laneSum f sumIndex laneIndex q n := by
  have hlane := h.lane
  rw [h.value]
  refine laneSum_of_near hend hnear ?_
  unfold columnLaneCount at haligned hlane ⊢
  omega

end DecoderSum.Holds

namespace SumWindow

/-- The window shows what was received, of the packets from the number `base` on. -/
structure Shows (p : Nat → Bytes) (got : Finset Nat) (base : Nat) (w : SumWindow) : Prop where
  aligned : base % columnLaneCount = 0
  columnStart : w.columnStart = base
  near : base + w.count ≤ siamesePacketNumCount / 2
  element : ∀ e, (w.getWindowElement e).buffer = present p got (base + e)
  inside : ∀ k ∈ got, k < base + w.count

/-- All sums hold the packets `f`. -/
def SumsHold (f : Nat → Bytes) (base q : Nat) (w : SumWindow) : Prop :=
  ∀ laneIndex < columnLaneCount, ∀ sumIndex < columnSumCount,
    (w.sums laneIndex sumIndex).Holds f base q laneIndex sumIndex

/-- No sum has passed a packet from the number `top` on. -/
def UpTo (base top : Nat) (w : SumWindow) : Prop :=
  ∀ laneIndex < columnLaneCount, ∀ sumIndex < columnSumCount,
    base + (w.sums laneIndex sumIndex).elementEnd < top + columnLaneCount

variable {p f g : Nat → Bytes} {got : Finset Nat} {base q top laneIndex sumIndex : Nat}
  {w w' : SumWindow}

theorem UpTo.mono {top' : Nat} (h : w.UpTo base top) (hle : top ≤ top') : w.UpTo base top' :=
  fun l hl j hj => (h l hl j hj).trans_le (Nat.add_le_add_right hle _)

/-- Sums do not see what is beyond what they have passed. -/
theorem SumsHold.congr (h : w.SumsHold f base q) (haligned : base % columnLaneCount = 0)
    (htop : w.UpTo base top) (hfg : ∀ k, q ≤ k → k < top → f k = g k) : w.SumsHold g base q := by
  intro l hl j hj
  have hlane := (h l hl j hj).lane
  have hlt := htop l hl j hj
  refine (h l hl j hj).congr fun k hq hk hkl => hfg k hq ?_
  unfold columnLaneCount at *
  omega

theorem Shows.of_window (h : w.Shows p got base)
    (hwindow : w'.toDecoderPacketWindow = w.toDecoderPacketWindow) : w'.Shows p got base := by
  obtain ⟨w', sums, columnStart, columnCount, recovered⟩ := w'
  dsimp only at hwindow
  subst hwindow
  exact ⟨h.aligned, h.columnStart, h.near, h.element, h.inside⟩

theorem Shows.original_eq (h : w.Shows p got base) (e : Nat) :
    w.original e = ⟨(base + e) % siamesePacketNumCount, present p got (base + e)⟩ := by
  rw [original, h.element, DecoderPacketWindow.elementToColumn, h.columnStart, Nat.add_comm]

/-- A column of the window is at its element. -/
theorem Shows.columnToElement (h : w.Shows p got base) {k : Nat} (hle : base ≤ k)
    (hk : k < siamesePacketNumCount) : w.columnToElement k = k - base := by
  have hnear := Cyclic.distance_of_near (p := siamesePacketNumCount) hle (by omega)
  rw [DecoderPacketWindow.columnToElement, h.columnStart]
  rwa [Nat.mod_eq_of_lt hk, Nat.mod_eq_of_lt (by omega)] at hnear

/-- A column before the window is not in it. -/
theorem Shows.invalid_of_lt (h : w.Shows p got base) {k : Nat} (hlt : k < base) :
    w.InvalidElement (w.columnToElement k) := by
  have hnear := h.near
  have hbehind := Cyclic.distance_of_behind (p := siamesePacketNumCount) hlt
    (by unfold siamesePacketNumCount at *; omega)
  rw [InvalidElement, DecoderPacketWindow.columnToElement, h.columnStart]
  rw [Nat.mod_eq_of_lt (by unfold siamesePacketNumCount at *; omega),
    Nat.mod_eq_of_lt (by unfold siamesePacketNumCount at *; omega)] at hbehind
  rw [hbehind]
  unfold siamesePacketNumCount at *
  omega

/-! ## Rolling forward -/

/-- Sums were rolled forward to an element at most, and nothing else. -/
structure Rolls (elementEnd : Nat) (w w' : SumWindow) : Prop where
  window : w'.toDecoderPacketWindow = w.toDecoderPacketWindow
  columnStart : w'.sumColumnStart = w.sumColumnStart
  columnCount : w'.sumColumnCount = w.sumColumnCount
  recovered : w'.recoveredColumns = w.recoveredColumns
  next : ∀ l j, (w.sums l j).elementEnd ≤ (w'.sums l j).elementEnd
  holds : ∀ {p got base q}, w.Shows p got base → w.SumsHold (present p got) base q →
    w'.SumsHold (present p got) base q
  upTo : ∀ {base top}, base + elementEnd ≤ top → w.UpTo base top → w'.UpTo base top

theorem Rolls.refl (e : Nat) (w : SumWindow) : Rolls e w w :=
  ⟨rfl, rfl, rfl, rfl, fun _ _ => le_rfl, fun _ h => h, fun _ h => h⟩

theorem Rolls.shows {e : Nat} (h : Rolls e w w') (hw : w.Shows p got base) :
    w'.Shows p got base := hw.of_window h.window

theorem Rolls.count {e : Nat} (h : Rolls e w w') : w'.count = w.count :=
  congrArg DecoderPacketWindow.count h.window

theorem Rolls.trans {e : Nat} {w'' : SumWindow} (h : Rolls e w w') (h' : Rolls e w' w'') :
    Rolls e w w'' :=
  ⟨h'.window.trans h.window, h'.columnStart.trans h.columnStart,
    h'.columnCount.trans h.columnCount, h'.recovered.trans h.recovered,
    fun l j => (h.next l j).trans (h'.next l j), fun hw hs => h'.holds (h.shows hw) (h.holds hw hs),
    fun htop hs => h'.upTo htop (h.upTo htop hs)⟩

theorem length_accumulate (sumIndex : Nat) (sum : Bytes) (original : SentPacket) :
    (ByteWindow.accumulate sumIndex sum original).length =
      max sum.length original.buffer.length := by
  unfold ByteWindow.accumulate
  dsimp only
  split <;> simp

/-- The loop of `GetSum` adds what is there of the packets that it passes. -/
theorem accumulateLane_spec (hw : w.Shows p got base) (hsum : sumIndex < columnSumCount)
    (rounds : Nat) {element : Nat} {sum : Bytes} (hlane : element % columnLaneCount = laneIndex)
    (hstart : q ≤ base + element)
    (hend : element + rounds * columnLaneCount < w.count + columnLaneCount)
    (hvec : vec sum = laneSum (present p got) sumIndex laneIndex q (base + element))
    (hroom : ∀ k, q ≤ k → k < base + element → k % columnLaneCount = laneIndex →
      (present p got k).length ≤ sum.length) :
    vec (w.accumulateLane sumIndex rounds element sum) =
      laneSum (present p got) sumIndex laneIndex q (base + (element + rounds * columnLaneCount)) ∧
    ∀ k, q ≤ k → k < base + (element + rounds * columnLaneCount) →
      k % columnLaneCount = laneIndex →
      (present p got k).length ≤ (w.accumulateLane sumIndex rounds element sum).length := by
  have haligned := hw.aligned
  induction rounds generalizing element sum with
  | zero => simpa [accumulateLane] using ⟨hvec, hroom⟩
  | succ rounds ih =>
      have hlast : element + (rounds * columnLaneCount + columnLaneCount) <
          w.count + columnLaneCount := by simpa [Nat.succ_mul] using hend
      unfold columnLaneCount at haligned hlane hlast
      have hnumber : (base + element) % columnLaneCount = laneIndex := by
        unfold columnLaneCount
        omega
      -- the packet is added if it is there
      have hnext : ∀ x : Bytes, x = (if present p got (base + element) = [] then sum
          else ByteWindow.accumulate sumIndex sum (w.original element)) →
          vec x = laneSum (present p got) sumIndex laneIndex q
            (base + (element + columnLaneCount)) ∧
          sum.length ≤ x.length ∧ (present p got (base + element)).length ≤ x.length := by
        rintro x rfl
        rw [← Nat.add_assoc, laneSum_next hstart hnumber, ← hvec]
        split
        next hempty => simp [hempty]
        · rw [hw.original_eq, ByteWindow.vec_accumulate hsum, length_accumulate]
          exact ⟨rfl, le_max_left _ _, le_max_right _ _⟩
      obtain ⟨hvec', hkeep, hnew⟩ := hnext _ rfl
      have hbuffer : (w.original element).buffer = present p got (base + element) :=
        hw.element element
      rw [accumulateLane, hbuffer]
      obtain ⟨hdone, hall⟩ := @ih (element + columnLaneCount) _
        (by unfold columnLaneCount; omega) (by omega) (by unfold columnLaneCount at *; omega) hvec'
        (fun k hq hk hkl => by
          by_cases hlt : k < base + element
          · exact (hroom k hq hlt hkl).trans hkeep
          · obtain rfl : k = base + element := by
              unfold columnLaneCount at hk hkl hnumber
              omega
            exact hnew)
      have hsame : element + columnLaneCount + rounds * columnLaneCount =
          element + (rounds + 1) * columnLaneCount := by
        unfold columnLaneCount
        omega
      rw [hsame] at hdone hall
      exact ⟨hdone, hall⟩

/-- **`GetSum`** rolls one sum forward to an element of the window, and returns it. -/
theorem getSum_spec (w : SumWindow) {elementEnd : Nat} (hsum : sumIndex < columnSumCount)
    (hend : elementEnd ≤ w.count) (laneIndex : Nat) :
    Rolls elementEnd w (w.getSum laneIndex sumIndex elementEnd).2 ∧
    elementEnd ≤ ((w.getSum laneIndex sumIndex elementEnd).2.sums laneIndex sumIndex).elementEnd ∧
    (w.getSum laneIndex sumIndex elementEnd).1 =
      ((w.getSum laneIndex sumIndex elementEnd).2.sums laneIndex sumIndex).buffer := by
  unfold getSum
  dsimp only
  by_cases hdone : elementEnd ≤ (w.sums laneIndex sumIndex).elementEnd
  · rw [if_pos hdone]
    exact ⟨Rolls.refl _ w, hdone, rfl⟩
  rw [if_neg hdone]
  generalize hrounds : (elementEnd - (w.sums laneIndex sumIndex).elementEnd +
    columnLaneCount - 1) / columnLaneCount = rounds
  have hlast : elementEnd ≤ (w.sums laneIndex sumIndex).elementEnd + rounds * columnLaneCount ∧
      (w.sums laneIndex sumIndex).elementEnd + rounds * columnLaneCount <
        elementEnd + columnLaneCount := by
    unfold columnLaneCount at *
    omega
  generalize hrolled : ({ w.sums laneIndex sumIndex with
    elementEnd := (w.sums laneIndex sumIndex).elementEnd + rounds * columnLaneCount
    buffer := w.accumulateLane sumIndex rounds (w.sums laneIndex sumIndex).elementEnd
      (w.sums laneIndex sumIndex).buffer } : DecoderSum) = rolled
  have hrolledEnd : rolled.elementEnd =
      (w.sums laneIndex sumIndex).elementEnd + rounds * columnLaneCount := by rw [← hrolled]
  have hsums : ∀ l j, Function.update w.sums laneIndex (Function.update (w.sums laneIndex)
      sumIndex rolled) l j = if l = laneIndex ∧ j = sumIndex then rolled else w.sums l j := by
    intro l j
    by_cases hl : l = laneIndex
    · subst hl
      by_cases hj : j = sumIndex <;> simp [hj]
    · simp [hl]
  refine ⟨⟨rfl, rfl, rfl, rfl, fun l j => ?_, fun {p got base q} hw hs l hl j hj => ?_,
    fun {base top} htop hup l hl j hj => ?_⟩, ?_, ?_⟩
  · dsimp only
    rw [hsums]
    split
    next hat =>
      rw [hrolledEnd, hat.1, hat.2]
      exact Nat.le_add_right _ _
    · exact le_rfl
  · dsimp only
    rw [hsums]
    split
    next hat =>
      obtain ⟨rfl, rfl⟩ := hat
      have hold := hs l hl j hj
      have hlane := hold.lane
      have haligned := hw.aligned
      have hle := hold.le
      rw [hold.start] at hle
      obtain ⟨hnextlane, hnextle, -⟩ := ByteWindow.getNextLaneElement_spec (q - base) hl
      obtain ⟨hvec, hroom⟩ := accumulateLane_spec hw hj rounds hold.lane (q := q) (by omega)
        (by unfold columnLaneCount at *; omega) hold.value hold.room
      rw [← hrolled]
      refine ⟨hold.start, ?_, hold.le.trans (Nat.le_add_right _ _), hvec, hroom⟩
      show ((w.sums l j).elementEnd + rounds * columnLaneCount) % columnLaneCount = l
      rw [Nat.add_mul_mod_self_right]
      exact hlane
    · exact hs l hl j hj
  · dsimp only
    rw [hsums]
    split
    · rw [hrolledEnd]
      omega
    · exact hup l hl j hj
  · dsimp only
    rw [hsums, if_pos ⟨rfl, rfl⟩, hrolledEnd]
    exact hlast.1
  · dsimp only
    rw [hsums, if_pos ⟨rfl, rfl⟩, ← hrolled]

/-- A loop of steps that roll sums, each of which also does something that rolling keeps. -/
theorem Rolls.foldl {α : Type} (f : SumWindow → α → SumWindow) (Q : α → SumWindow → Prop)
    (elementEnd : Nat) (hkeep : ∀ x w w', Q x w → Rolls elementEnd w w' → Q x w') (xs : List α)
    (hstep : ∀ w, ∀ x ∈ xs, elementEnd ≤ w.count → Rolls elementEnd w (f w x) ∧ Q x (f w x))
    (w : SumWindow) (hend : elementEnd ≤ w.count) :
    Rolls elementEnd w (xs.foldl f w) ∧ ∀ x ∈ xs, Q x (xs.foldl f w) := by
  induction xs generalizing w with
  | nil => exact ⟨Rolls.refl _ w, by simp⟩
  | cons x xs ih =>
      obtain ⟨hrolls, hdone⟩ := hstep w x List.mem_cons_self hend
      obtain ⟨hrest, hall⟩ := ih (fun w y hy => hstep w y (List.mem_cons_of_mem _ hy)) (f w x)
        (hrolls.count ▸ hend)
      refine ⟨hrolls.trans hrest, fun y hy => ?_⟩
      rcases List.mem_cons.mp hy with rfl | hy
      · exact hkeep _ _ _ hdone hrest
      · exact hall y hy

/-- Before elements are removed, all sums are rolled past them. -/
theorem rollSums_spec (w : SumWindow) {elementEnd : Nat} (hend : elementEnd ≤ w.count) :
    Rolls elementEnd w (w.rollSums elementEnd) ∧ ∀ l < columnLaneCount, ∀ j < columnSumCount,
      elementEnd ≤ ((w.rollSums elementEnd).sums l j).elementEnd := by
  let lane (l : Nat) (w : SumWindow) : SumWindow :=
    (List.range columnSumCount).foldl (fun w j => (w.getSum l j elementEnd).2) w
  have hlane : ∀ (w : SumWindow) (l : Nat), elementEnd ≤ w.count →
      Rolls elementEnd w (lane l w) ∧
      ∀ j ∈ List.range columnSumCount, elementEnd ≤ ((lane l w).sums l j).elementEnd := by
    intro w l hend
    refine Rolls.foldl _ (fun j w => elementEnd ≤ (w.sums l j).elementEnd) elementEnd
      (fun j w w' hQ hr => hQ.trans (hr.next l j)) _ (fun w j hj hend => ?_) w hend
    obtain ⟨hrolls, hnext, -⟩ := w.getSum_spec (List.mem_range.mp hj) hend l
    exact ⟨hrolls, hnext⟩
  obtain ⟨hrolls, hall⟩ := Rolls.foldl (fun w l => lane l w)
    (fun l w => ∀ j ∈ List.range columnSumCount, elementEnd ≤ (w.sums l j).elementEnd)
    elementEnd (fun l w w' hQ hr j hj => (hQ j hj).trans (hr.next l j))
    (List.range columnLaneCount) (fun w l _ hend => hlane w l hend) w hend
  exact ⟨hrolls, fun l hl j hj => hall l (List.mem_range.mpr hl) j (List.mem_range.mpr hj)⟩

/-! ## Starting over -/

/-- A sum that has nothing yet -/
theorem holds_fresh {s : DecoderSum} (haligned : base % columnLaneCount = 0) (hq : base ≤ q)
    (hl : laneIndex < columnLaneCount)
    (hstart : s.elementStart = ByteWindow.getNextLaneElement (q - base) laneIndex)
    (hend : s.elementEnd = ByteWindow.getNextLaneElement (q - base) laneIndex)
    (hvec : vec s.buffer = 0) : s.Holds f base q laneIndex sumIndex := by
  obtain ⟨hlane, hge, hnear⟩ := ByteWindow.getNextLaneElement_spec (q - base) hl
  rw [← hend] at hlane hge hnear
  refine ⟨hstart, hlane, by rw [hstart, hend], ?_, fun k hk hlt hkl => ?_⟩
  · rw [hvec, laneSum_eq_zero (by omega)]
    unfold columnLaneCount at *
    omega
  · unfold columnLaneCount at *
    omega

/-- **`ResetSums`** -/
theorem resetSums_spec (haligned : base % columnLaneCount = 0) (hq : base ≤ q) (htop : q ≤ top) :
    (w.resetSums (q - base)).SumsHold f base q ∧ (w.resetSums (q - base)).UpTo base top := by
  refine ⟨fun l hl j _ => holds_fresh haligned hq hl rfl rfl vec_nil, fun l hl j _ => ?_⟩
  obtain ⟨-, hge, hnear⟩ := ByteWindow.getNextLaneElement_spec (q - base) hl
  show base + ByteWindow.getNextLaneElement (q - base) l < _
  omega

/-- A sum goes on if it has something and starts where it should. If it has nothing, none of
the packets that it passed was there. -/
theorem startSum_holds {s : DecoderSum} (h : s.Holds f base q laneIndex sumIndex)
    (hl : laneIndex < columnLaneCount) (bufferBytes : Nat) :
    (startSum s (ByteWindow.getNextLaneElement (q - base) laneIndex) bufferBytes).Holds f base q
      laneIndex sumIndex := by
  obtain ⟨hlane, -, -⟩ := ByteWindow.getNextLaneElement_spec (q - base) hl
  have hle := h.le
  rw [h.start] at hle
  unfold startSum
  split
  next hfresh =>
    have hnil : s.buffer = [] := hfresh.resolve_right fun hne => hne h.start
    have hnone : ∀ k, q ≤ k → k < base + s.elementEnd → k % columnLaneCount = laneIndex →
        f k = [] := fun k hq hk hkl => by
      have hroom := h.room k hq hk hkl
      rw [hnil] at hroom
      exact List.eq_nil_of_length_eq_zero (Nat.le_zero.mp hroom)
    refine ⟨rfl, hlane, le_rfl, ?_, fun k hq hk hkl => ?_⟩
    · dsimp only
      rw [vec_growZeroPadded, vec_nil, laneSum]
      refine (sum_eq_zero fun k hk => ?_).symm
      obtain ⟨hk, hkl⟩ := mem_filter.mp hk
      obtain ⟨hq, hk⟩ := mem_Ico.mp hk
      rw [hnone k hq (by omega) hkl, vec_nil, smul_zero]
    · rw [hnone k hq (hk.trans_le (Nat.add_le_add_left hle _)) hkl]
      exact Nat.zero_le _
  · refine ⟨h.start, h.lane, h.le, (vec_growZeroPadded _ _).trans h.value, fun k hq hk hkl => ?_⟩
    rw [length_growZeroPadded]
    exact (h.room k hq hk hkl).trans (le_max_left _ _)

/-! ## Holes -/

/-- A column in a lane is passed over exactly if it is from the start on and before the next
packet of the sum. -/
theorem passedOver_iff (hw : w.Shows p got base) {k : Nat} (hk : base ≤ k) (sumIndex : Nat) :
    w.PassedOver (q - base) (k % columnLaneCount) sumIndex (k - base) ↔
      q ≤ k ∧ k < base + (w.sums (k % columnLaneCount) sumIndex).elementEnd := by
  have haligned := hw.aligned
  obtain ⟨hlane, hge, hnear⟩ := ByteWindow.getNextLaneElement_spec (q - base)
    (Nat.mod_lt k (by decide : 0 < columnLaneCount))
  unfold PassedOver
  unfold columnLaneCount at *
  omega

/-- One hole is plugged in the sums that passed over it. -/
theorem plugSumHole_spec (hw : w.Shows p got base) {k : Nat} (hk : k ∈ got)
    (hbefore : k < base → k < q) (hf : f k = []) (hg : ∀ i, i ≠ k → g i = f i)
    (hgk : g k = p k) (hs : w.SumsHold f base q) {w' : SumWindow}
    (hplug : w.plugSumHole (q - base) k = some w') :
    w'.SumsHold g base q ∧ w'.toDecoderPacketWindow = w.toDecoderPacketWindow ∧
      w'.sumColumnStart = w.sumColumnStart ∧ w'.sumColumnCount = w.sumColumnCount ∧
      w'.recoveredColumns = w.recoveredColumns ∧
      ∀ l j, (w'.sums l j).elementEnd = (w.sums l j).elementEnd := by
  have hinside := hw.inside k hk
  have hnear := hw.near
  have hsmall : k < siamesePacketNumCount := by
    unfold siamesePacketNumCount at *
    omega
  unfold plugSumHole at hplug
  dsimp only at hplug
  by_cases hold : k < base
  · rw [if_pos (hw.invalid_of_lt hold)] at hplug
    cases hplug
    refine ⟨fun l hl j hj => (hs l hl j hj).congr fun i hq _ _ => (hg i ?_).symm, rfl, rfl, rfl,
      rfl, fun _ _ => rfl⟩
    have := hbefore hold
    omega
  rw [hw.columnToElement (by omega) hsmall] at hplug
  have hvalid : ¬w.InvalidElement (k - base) := by
    unfold InvalidElement
    omega
  have hbuffer : (w.getWindowElement (k - base)).buffer = p k := by
    rw [hw.element, Nat.add_sub_cancel' (by omega), present_of_mem hk]
  rw [if_neg hvalid, hbuffer] at hplug
  split at hplug
  · cases hplug
  cases hplug
  have hsums : ∀ l j, Function.update w.sums (k % columnLaneCount) (fun sumIndex =>
      if w.PassedOver (q - base) (k % columnLaneCount) sumIndex (k - base) then
        { w.sums (k % columnLaneCount) sumIndex with
          buffer := ByteWindow.accumulate sumIndex
            (w.sums (k % columnLaneCount) sumIndex).buffer ⟨k, p k⟩ }
      else w.sums (k % columnLaneCount) sumIndex) l j =
      if l = k % columnLaneCount ∧ q ≤ k ∧ k < base + (w.sums l j).elementEnd then
        { w.sums l j with buffer := ByteWindow.accumulate j (w.sums l j).buffer ⟨k, p k⟩ }
      else w.sums l j := by
    intro l j
    by_cases hl : l = k % columnLaneCount
    · subst hl
      rw [Function.update_self]
      simp only [passedOver_iff hw (not_lt.mp hold), true_and]
    · rw [Function.update_of_ne hl, if_neg fun h => hl h.1]
  refine ⟨fun l hl j hj => ?_, rfl, rfl, rfl, rfl, fun l j => ?_⟩
  · dsimp only
    rw [hsums]
    have hsum := hs l hl j hj
    split
    next hpassed =>
      obtain ⟨hlk, hq, hlt⟩ := hpassed
      have hfill := @laneSum_fill f g j l q _ k hq hlt hlk.symm hf hg
      refine ⟨hsum.start, hsum.lane, hsum.le, ?_, fun i hqi hi hil => ?_⟩
      · dsimp only
        rw [ByteWindow.vec_accumulate hj, hsum.value, hfill, hgk, Nat.mod_eq_of_lt hsmall]
      · dsimp only
        rw [length_accumulate]
        by_cases hik : i = k
        · rw [hik, hgk]
          exact le_max_right _ _
        · rw [hg i hik]
          exact (hsum.room i hqi hi hil).trans (le_max_left _ _)
    next hpassed =>
      refine hsum.congr fun i hqi hi hil => (hg i ?_).symm
      rintro rfl
      exact hpassed ⟨hil.symm, hqi, hi⟩
  · dsimp only
    rw [hsums]
    split <;> rfl

/-- The holes are plugged one after the other. -/
theorem plugLoop_spec {columns : List Nat} (hnodup : columns.Nodup)
    (hgot : ∀ k ∈ columns, k ∈ got) (hbefore : ∀ k ∈ columns, k < base → k < q)
    (hw : w.Shows p got base) (hs : w.SumsHold (present p (got \ columns.toFinset)) base q)
    {w' : SumWindow} (hplug : plugLoop (q - base) columns w = some w') :
    w'.SumsHold (present p got) base q ∧ w'.toDecoderPacketWindow = w.toDecoderPacketWindow ∧
      w'.sumColumnStart = w.sumColumnStart ∧ w'.sumColumnCount = w.sumColumnCount ∧
      ∀ l j, (w'.sums l j).elementEnd = (w.sums l j).elementEnd := by
  induction columns generalizing w with
  | nil =>
      cases hplug
      exact ⟨by simpa using hs, rfl, rfl, rfl, fun _ _ => rfl⟩
  | cons k ks ih =>
      obtain ⟨hk, hks⟩ := List.nodup_cons.mp hnodup
      rw [plugLoop] at hplug
      split at hplug
      · cases hplug
      next v hv =>
      have hkgot := hgot k List.mem_cons_self
      obtain ⟨hsv, hwindow, hstart, hcount, -, hends⟩ := plugSumHole_spec (f := present p
        (got \ (k :: ks).toFinset)) (g := present p (got \ ks.toFinset)) hw hkgot
        (hbefore k List.mem_cons_self) (by simp) (fun i hi => by simp [present, hi])
        (by simp [present, hk, hkgot]) hs hv
      have hshows : v.Shows p got base := hw.of_window hwindow
      obtain ⟨hdone, hwindow', hstart', hcount', hends'⟩ := ih hks
        (fun i hi => hgot i (List.mem_cons_of_mem _ hi))
        (fun i hi => hbefore i (List.mem_cons_of_mem _ hi)) hshows hsv hplug
      exact ⟨hdone, hwindow'.trans hwindow, hstart'.trans hstart, hcount'.trans hcount,
        fun l j => (hends' l j).trans (hends l j)⟩

/-- What was recovered is in the window, so that every hole can be plugged. -/
theorem plugLoop_isSome {columns : List Nat} (hp : ∀ k, p k ≠ []) (hgot : ∀ k ∈ columns, k ∈ got)
    (hw : w.Shows p got base) (elementStart : Nat) :
    ∃ w', plugLoop elementStart columns w = some w' := by
  induction columns generalizing w with
  | nil => exact ⟨w, rfl⟩
  | cons k ks ih =>
      have hk := hgot k List.mem_cons_self
      have hinside := hw.inside k hk
      have hnear := hw.near
      have hhole : ∃ v, w.plugSumHole elementStart k = some v ∧
          v.toDecoderPacketWindow = w.toDecoderPacketWindow := by
        unfold plugSumHole
        dsimp only
        split
        · exact ⟨w, rfl, rfl⟩
        next hvalid =>
          have hge : base ≤ k := not_lt.mp fun hlt => hvalid (hw.invalid_of_lt hlt)
          rw [if_neg fun h => ?_]
          · exact ⟨_, rfl, rfl⟩
          · refine hp k ?_
            rw [← h.1, hw.columnToElement hge (by unfold siamesePacketNumCount at *; omega),
              hw.element, Nat.add_sub_cancel' hge, present_of_mem hk]
      obtain ⟨v, hv, hwindow⟩ := hhole
      rw [plugLoop, hv]
      exact ih (fun i hi => hgot i (List.mem_cons_of_mem _ hi)) (hw.of_window hwindow)

/-- The columns that were recovered since the sums were last started -/
structure Pending (got : Finset Nat) (w : SumWindow) : Prop where
  nodup : w.recoveredColumns.Nodup
  got : ∀ k ∈ w.recoveredColumns, k ∈ got

/-- The sums hold what was received from the number `q` on, but for what was recovered since. -/
structure Running (p : Nat → Bytes) (got : Finset Nat) (base top q : Nat) (w : SumWindow) :
    Prop where
  holds : w.SumsHold (present p (got \ w.recoveredColumns.toFinset)) base q
  upTo : w.UpTo base top
  kept : ∀ k ∈ w.recoveredColumns, base ≤ k

/-- The sums were given up. If what they started with is still in the window, they will start
over. -/
structure Stale (base : Nat) (w : SumWindow) : Prop where
  idle : w.sumColumnCount = 0
  apart : base ≤ w.sumColumnStart → ∀ l < columnLaneCount, ∀ j < columnSumCount,
    (w.sums l j).buffer = [] ∨
      ByteWindow.getNextLaneElement (w.sumColumnStart - base) l < (w.sums l j).elementStart

/-- What the sums become when they are started at the number `q` -/
structure Started (p : Nat → Bytes) (got : Finset Nat) (base top q : Nat) (w w' : SumWindow) :
    Prop where
  window : w'.toDecoderPacketWindow = w.toDecoderPacketWindow
  recovered : w'.recoveredColumns = []
  holds : w'.SumsHold (present p got) base q
  upTo : w'.UpTo base top

theorem startSums_isSome (hp : ∀ k, p k ≠ []) (hw : w.Shows p got base) (hpending : w.Pending got)
    (elementStart bufferBytes : Nat) : ∃ w', w.startSums elementStart bufferBytes = some w' := by
  unfold startSums plugSumHoles
  dsimp only
  split
  · exact ⟨_, rfl⟩
  · obtain ⟨v, hv⟩ := @plugLoop_isSome p got base { w with
      sums := fun laneIndex sumIndex => startSum (w.sums laneIndex sumIndex)
        (ByteWindow.getNextLaneElement elementStart laneIndex) bufferBytes } w.recoveredColumns hp
      hpending.got ⟨hw.aligned, hw.columnStart, hw.near, hw.element, hw.inside⟩ elementStart
    rw [hv]
    exact ⟨_, rfl⟩

/-- **`StartSums`**, whether the sums go on or start over -/
theorem startSums_spec (hw : w.Shows p got base) (hpending : w.Pending got) (hq : q ≤ top)
    (hbase : base ≤ top)
    (hs : w.Running p got base top q ∨
      base ≤ q ∧ ∀ l < columnLaneCount, ∀ j < columnSumCount, (w.sums l j).buffer = [] ∨
        (w.sums l j).elementStart ≠ ByteWindow.getNextLaneElement (q - base) l)
    {bufferBytes : Nat} (hstart : w.startSums (q - base) bufferBytes = some w') :
    Started p got base top q w w' ∧ w'.sumColumnStart = w.sumColumnStart ∧
      w'.sumColumnCount = w.sumColumnCount := by
  have hbefore : ∀ k ∈ w.recoveredColumns, k < base → k < q := by
    intro k hk hlt
    rcases hs with hs | ⟨hle, -⟩
    · exact absurd (hs.kept k hk) (by omega)
    · omega
  -- what a sum is before the holes are plugged
  have hsum : ∀ l < columnLaneCount, ∀ j < columnSumCount,
      (startSum (w.sums l j) (ByteWindow.getNextLaneElement (q - base) l) bufferBytes).Holds
        (present p (got \ w.recoveredColumns.toFinset)) base q l j ∧
      base + (startSum (w.sums l j) (ByteWindow.getNextLaneElement (q - base) l)
        bufferBytes).elementEnd < top + columnLaneCount := by
    intro l hl j hj
    obtain ⟨-, hge, hnear⟩ := ByteWindow.getNextLaneElement_spec (q - base) hl
    refine ⟨?_, ?_⟩
    · rcases hs with hs | ⟨hle, hfresh⟩
      · exact startSum_holds (hs.holds l hl j hj) hl bufferBytes
      · unfold startSum
        rw [if_pos (hfresh l hl j hj)]
        exact holds_fresh hw.aligned hle hl rfl rfl (by rw [vec_growZeroPadded, vec_nil])
    · unfold startSum
      split
      · dsimp only
        omega
      next hgoes =>
        rcases hs with hs | ⟨-, hfresh⟩
        · exact hs.upTo l hl j hj
        · exact absurd (hfresh l hl j hj) hgoes
  unfold startSums plugSumHoles at hstart
  dsimp only at hstart
  split at hstart
  next hnil =>
    cases hstart
    refine ⟨⟨rfl, hnil, fun l hl j hj => ?_, fun l hl j hj => (hsum l hl j hj).2⟩, rfl, rfl⟩
    have hholds := (hsum l hl j hj).1
    rw [hnil] at hholds
    simpa using hholds
  next hholes =>
    obtain ⟨v, hv, rfl⟩ := Option.map_eq_some_iff.mp hstart
    have hplugged := fun hshows hsums => plugLoop_spec (p := p) hpending.nodup hpending.got
      hbefore hshows hsums hv
    obtain ⟨hdone, hwindow, hcolumn, hcount, hends⟩ := hplugged
      ⟨hw.aligned, hw.columnStart, hw.near, hw.element, hw.inside⟩
      (fun l hl j hj => (hsum l hl j hj).1)
    refine ⟨⟨hwindow, rfl, hdone, fun l hl j hj => ?_⟩, hcolumn, hcount⟩
    have hlt := (hsum l hl j hj).2
    rw [← hends l j] at hlt
    exact hlt

/-- The sums from the number `q` on are up to `top`, and what they passed over is in a set. -/
structure Reaches (p : Nat → Bytes) (got after : Finset Nat) (base top : Nat) (w : SumWindow) :
    Prop where
  running : w.Running p got base top w.sumColumnStart
  base_le : base ≤ top
  start_le : w.sumColumnStart ≤ top
  le : top ≤ max (w.sumColumnStart + w.sumColumnCount) base
  after : ∀ k, w.sumColumnStart ≤ k → k < top → k ∈ after

/-- The sums are running, or they were given up. -/
def Summing (p : Nat → Bytes) (got after : Finset Nat) (base : Nat) (w : SumWindow) : Prop :=
  (∃ top, w.Reaches p got after base top) ∨ w.Stale base

/-- The sums are started over for a row. -/
def Restarts (q sumCount : Nat) (w : SumWindow) : Prop :=
  q ≠ w.sumColumnStart ∨ sumCount < w.sumColumnCount

instance (q sumCount : Nat) (w : SumWindow) : Decidable (w.Restarts q sumCount) :=
  inferInstanceAs (Decidable (_ ∨ _))

/-- The packets from the number `q` on are in the window, or the sums have those that are not. -/
def Available (base q sumCount : Nat) (w : SumWindow) : Prop :=
  base ≤ q ∨ ¬w.Stale base ∧ ¬w.Restarts q sumCount

/-- The sums are ready for a row that covers the packets from the number `q` on. -/
theorem prepareSums_spec {after : Finset Nat} (hp : ∀ k, p k ≠ []) (hw : w.Shows p got base)
    (hpending : w.Pending got) {sumCount : Nat} (hpos : 0 < sumCount)
    (hn : q + sumCount ≤ base + w.count) (hs : w.Summing p got after base)
    (havailable : w.Available base q sumCount) (ldpcCount bufferBytes : Nat) :
    ∃ w' top, w.prepareSums ⟨sumCount, ldpcCount, q⟩ bufferBytes = some w' ∧
      Started p got base top q w w' ∧ w'.sumColumnStart = q ∧
      w'.sumColumnCount = w.sumColumnCount ∧ base ≤ top ∧ q ≤ top ∧
      top ≤ max (q + if w.Restarts q sumCount then 0 else w.sumColumnCount) base ∧
      ∀ k, q ≤ k → k < top → k ∈ after := by
  have hnear := hw.near
  have hsmall : q < siamesePacketNumCount := by
    unfold siamesePacketNumCount at *
    omega
  unfold prepareSums
  dsimp only
  by_cases hrestart : w.Restarts q sumCount
  · have hle : base ≤ q := havailable.resolve_right fun h => h.2 hrestart
    have hvalid : ¬w.InvalidElement (w.columnToElement q) := by
      rw [hw.columnToElement hle hsmall, InvalidElement]
      omega
    obtain ⟨hholds, hupTo⟩ : (w.resetSums (q - base)).SumsHold (present p got) base q ∧
        (w.resetSums (q - base)).UpTo base q := resetSums_spec hw.aligned hle le_rfl
    rw [if_pos (show q ≠ w.sumColumnStart ∨ sumCount < w.sumColumnCount from hrestart),
      if_neg hvalid, hw.columnToElement hle hsmall]
    exact ⟨_, q, rfl, ⟨rfl, rfl, hholds, hupTo⟩, rfl, rfl, hle, le_rfl, by omega,
      fun k hge hlt => by omega⟩
  · have hsame : q = w.sumColumnStart := by
      by_contra hne
      exact hrestart (.inl hne)
    have helement : (if w.InvalidElement (w.columnToElement q) then 0 else w.columnToElement q) =
        q - base := by
      by_cases hlt : q < base
      · rw [if_pos (hw.invalid_of_lt hlt), Nat.sub_eq_zero_of_le hlt.le]
      · rw [hw.columnToElement (not_lt.mp hlt) hsmall, if_neg]
        unfold InvalidElement
        omega
    rw [if_neg (show ¬(q ≠ w.sumColumnStart ∨ sumCount < w.sumColumnCount) from hrestart), helement,
      if_neg hrestart]
    obtain ⟨w', hstart⟩ := startSums_isSome hp hw hpending (q - base) bufferBytes
    rcases hs with ⟨top, hreaches⟩ | hstale
    · obtain ⟨hrunning, hbase, hle, htop, hafter⟩ := hreaches
      rw [← hsame] at hrunning hle htop hafter
      obtain ⟨hstarted, hcolumn, hsum⟩ :=
        startSums_spec hw hpending hle hbase (.inl hrunning) hstart
      exact ⟨w', top, hstart, hstarted, hcolumn.trans hsame.symm, hsum, hbase, hle, htop, hafter⟩
    · have hle : base ≤ q := havailable.resolve_right fun h => h.1 hstale
      obtain ⟨hstarted, hcolumn, hsum⟩ := startSums_spec hw hpending (le_refl q) hle
        (.inr ⟨hle, fun l hl j hj => (hstale.apart (hsame ▸ hle) l hl j hj).imp_right fun hlt => by
          rw [hsame]
          exact hlt.ne'⟩) hstart
      exact ⟨w', q, hstart, hstarted, hcolumn.trans hsame.symm, hsum, hle, le_rfl, by omega,
        fun k hge hlt => by omega⟩

/-- Sums that were rolled past what is removed count from what is kept. -/
theorem clipSums_spec (hs : w.SumsHold f base q) (hbase : base % columnLaneCount = 0)
    {removed : Nat} (hremoved : removed % columnLaneCount = 0)
    (hrolled : ∀ l < columnLaneCount, ∀ j < columnSumCount, removed ≤ (w.sums l j).elementEnd) :
    (w.clipSums removed).SumsHold f (base + removed) q := by
  intro l hl j hj
  have hsum := hs l hl j hj
  have hend := hrolled l hl j hj
  have hlane := hsum.lane
  have hle := hsum.le
  have hstart := hsum.start
  obtain ⟨hl₁, hge₁, hnear₁⟩ := ByteWindow.getNextLaneElement_spec (q - base) hl
  obtain ⟨hl₂, hge₂, hnear₂⟩ := ByteWindow.getNextLaneElement_spec (q - (base + removed)) hl
  have hnumber : base + removed + ((w.sums l j).elementEnd - removed) =
      base + (w.sums l j).elementEnd := by omega
  refine ⟨?_, ?_, ?_, ?_, ?_⟩
  · simp only [clipSums]
    split <;> unfold columnLaneCount at * <;> omega
  · simp only [clipSums]
    unfold columnLaneCount at *
    omega
  · simp only [clipSums]
    split <;> unfold columnLaneCount at * <;> omega
  · simp only [clipSums]
    rw [hnumber]
    exact hsum.value
  · simp only [clipSums]
    rw [hnumber]
    exact hsum.room

theorem clipSums_upTo (h : w.UpTo base top) {removed : Nat}
    (hrolled : ∀ l < columnLaneCount, ∀ j < columnSumCount, removed ≤ (w.sums l j).elementEnd) :
    (w.clipSums removed).UpTo (base + removed) top := by
  intro l hl j hj
  have hlt := h l hl j hj
  have hend := hrolled l hl j hj
  simp only [clipSums]
  omega

/-- **The sums move with the window**: what is removed stays in them. -/
theorem moveSums_spec (hp : ∀ k, p k ≠ []) (hw : w.Shows p got base) (hpending : w.Pending got)
    {sumCount : Nat} (hpos : 0 < sumCount) (hn : q + sumCount ≤ base + w.count)
    (hs : w.Summing p got got base) (havailable : w.Available base q sumCount) {removed : Nat}
    (hlane : removed % columnLaneCount = 0) (hremoved : removed ≤ w.count)
    (hgot : ∀ k, q ≤ k → k < base + removed → k ∈ got)
    (ldpcCount bufferBytes : Nat) :
    ∃ w' top, w.moveSums (some (⟨sumCount, ldpcCount, q⟩, bufferBytes)) removed = some w' ∧
      w'.toDecoderPacketWindow = w.toDecoderPacketWindow ∧ w'.recoveredColumns = [] ∧
      w'.Reaches p got got (base + removed) top := by
  obtain ⟨v, top, hprepare, hstarted, hcolumn, hsum, hbase, hle, htop, hafter⟩ :=
    prepareSums_spec hp hw hpending hpos hn hs havailable ldpcCount bufferBytes
  unfold moveSums
  dsimp only
  rw [hprepare, Option.map_some]
  generalize hmoved : ({ v with sumColumnCount := if q ≠ w.sumColumnStart ∨
    sumCount < w.sumColumnCount then sumCount else v.sumColumnCount } : SumWindow) = moved
  have hwindow : moved.toDecoderPacketWindow = w.toDecoderPacketWindow := by
    rw [← hmoved]
    exact hstarted.window
  have hcount : moved.count = w.count := congrArg DecoderPacketWindow.count hwindow
  have hholds : moved.SumsHold (present p got) base q ∧ moved.UpTo base top ∧
      moved.recoveredColumns = [] ∧ moved.sumColumnStart = q := by
    rw [← hmoved]
    exact ⟨hstarted.holds, hstarted.upTo, hstarted.recovered, hcolumn⟩
  obtain ⟨hsums, hup, hrecovered, hstart⟩ := hholds
  have hreaches : top ≤ max (q + moved.sumColumnCount) base := by
    rw [← hmoved]
    dsimp only
    by_cases hrestart : w.Restarts q sumCount
    · rw [if_pos hrestart] at htop
      omega
    · rw [if_neg hrestart] at htop
      rw [if_neg (show ¬(q ≠ w.sumColumnStart ∨ sumCount < w.sumColumnCount) from hrestart), hsum]
      exact htop
  obtain ⟨hrolls, hrolled⟩ := moved.rollSums_spec (hremoved.trans hcount.ge)
  have hshows := hw.of_window hwindow
  have hrecovered' := hrolls.recovered.trans hrecovered
  refine ⟨_, max top (base + removed), rfl, hrolls.window.trans hwindow, hrecovered', ?_⟩
  have hcolumn' : ((moved.rollSums removed).clipSums removed).sumColumnStart = q :=
    hrolls.columnStart.trans hstart
  have hcount' : ((moved.rollSums removed).clipSums removed).sumColumnCount =
      moved.sumColumnCount := hrolls.columnCount
  refine ⟨⟨?_, ?_, ?_⟩, le_max_right _ _, ?_, ?_, fun k hge hk => ?_⟩
  · show SumsHold (present p (got \ (moved.rollSums removed).recoveredColumns.toFinset)) _ _ _
    rw [hcolumn', hrecovered', List.toFinset_nil, sdiff_empty]
    exact clipSums_spec (hrolls.holds hshows hsums) hw.aligned hlane hrolled
  · exact clipSums_upTo (hrolls.upTo (le_max_right _ _) (hup.mono (le_max_left _ _))) hrolled
  · show ∀ k ∈ (moved.rollSums removed).recoveredColumns, _
    simp [hrecovered']
  · rw [hcolumn']
    omega
  · rw [hcolumn', hcount']
    omega
  · rw [hcolumn'] at hge
    rcases lt_max_iff.mp hk with hk | hk
    · exact hafter k hge hk
    · exact hgot k hge hk

/-- Sums that are given up start over when they are used again. -/
theorem stale_of_summing {after : Finset Nat} (hs : w.Summing p got after base) {removed : Nat}
    (hremoved : columnLaneCount ≤ removed) :
    ({ w with sumColumnCount := 0 } : SumWindow).Stale (base + removed) := by
  refine ⟨rfl, fun hle l hl j hj => ?_⟩
  dsimp only at hle ⊢
  obtain ⟨-, hge, hnear⟩ := ByteWindow.getNextLaneElement_spec (w.sumColumnStart - base) hl
  obtain ⟨-, hge', hnear'⟩ :=
    ByteWindow.getNextLaneElement_spec (w.sumColumnStart - (base + removed)) hl
  rcases hs with ⟨top, hreaches⟩ | hstale
  · rw [(hreaches.running.holds l hl j hj).start]
    exact .inr (by omega)
  · exact (hstale.apart (by omega) l hl j hj).imp_right fun hlt => by omega

end SumWindow

end FecRelay
