import FecRelay.Codec.Combines

/-!
# Recovery packets made from running sums

The opcode of a row says, for each lane, which of the lane's sums go into the recovery packet
and which into the product that is multiplied by the row's value afterwards. Over all lanes
that is a coefficient for every packet in the sums. The light columns add some of the packets
that are not acknowledged once more.
-/

namespace FecRelay

open FecRelay.Base Finset

variable {p : Nat → Bytes} {n a base first q : Nat}

/-- A bit of an opcode is one sum, multiplied by the row's value or not. -/
theorem opcodeValue_eq (opcode : Nat) (cx rx : Gf256) : opcodeValue opcode cx rx =
    ∑ bit ∈ range (2 * columnSumCount), if opcode.testBit bit then
      (if bit < columnSumCount then 1 else rx) * cx ^ (bit % columnSumCount) else 0 := by
  simp [opcodeValue, columnSumCount, sum_range_succ, sq, mul_comm rx]

/-- What a bit of a lane's opcode adds. -/
def bitSum (p : Nat → Bytes) (row q n laneIndex bit : Nat) : Nat → Gf256 :=
  if (getRowOpcode laneIndex row).testBit bit then
    laneSum p (bit % columnSumCount) laneIndex q n
  else 0

/-- **Over all lanes and bits** every packet in the sums has its coefficient. -/
theorem sum_bitSum (p : Nat → Bytes) (row q n : Nat) (rx : Gf256) :
    ∑ l ∈ range columnLaneCount, ∑ bit ∈ range (2 * columnSumCount),
      (if bit < columnSumCount then 1 else rx) • bitSum p row q n l bit =
    ∑ k ∈ Ico q n, opcodeValue (getRowOpcode (k % columnLaneCount) row)
      ⟨getColumnValue (k % siamesePacketNumCount)⟩ rx • vec (p k) := by
  have hlane : ∀ l ∈ range columnLaneCount, ∑ bit ∈ range (2 * columnSumCount),
      (if bit < columnSumCount then 1 else rx) • bitSum p row q n l bit =
      ∑ k ∈ Ico q n with k % columnLaneCount = l,
        opcodeValue (getRowOpcode (k % columnLaneCount) row)
          ⟨getColumnValue (k % siamesePacketNumCount)⟩ rx • vec (p k) := by
    intro l _
    have hbit : ∀ bit ∈ range (2 * columnSumCount),
        (if bit < columnSumCount then 1 else rx) • bitSum p row q n l bit =
        ∑ k ∈ Ico q n with k % columnLaneCount = l,
          (if (getRowOpcode l row).testBit bit then
            (if bit < columnSumCount then 1 else rx) *
              (⟨getColumnValue (k % siamesePacketNumCount)⟩ : Gf256) ^ (bit % columnSumCount)
            else 0) • vec (p k) := by
      intro bit _
      unfold bitSum
      by_cases hset : (getRowOpcode l row).testBit bit = true
      · simp only [hset, if_true]
        rw [laneSum, smul_sum]
        exact sum_congr rfl fun k _ => (mul_smul _ _ _).symm
      · simp [hset]
    rw [sum_congr rfl hbit, sum_comm]
    refine sum_congr rfl fun k hk => ?_
    rw [(mem_filter.mp hk).2, opcodeValue_eq, sum_smul]
  rw [sum_congr rfl hlane]
  refine sum_fiberwise_of_maps_to (fun k _ => ?_) _
  exact mem_range.mpr (Nat.mod_lt _ (by decide))

namespace ByteWindow

variable {w : ByteWindow}

/-! ## Dense columns -/

/-- What the recovery packet and the product hold so far. -/
structure Dense (w : ByteWindow) (recovery product : Nat → Gf256)
    (x : ByteWindow × Bytes × Bytes) : Prop where
  rolls : w.Rolls x.1
  recovery_length : x.2.1.length = w.longestPacket
  product_length : x.2.2.length = w.longestPacket
  recovery : vec x.2.1 = upTo w.longestPacket recovery
  product : vec x.2.2 = upTo w.longestPacket product

/-- A loop whose steps add something to each. -/
theorem Dense.foldl {α : Type} {f : ByteWindow × Bytes × Bytes → α → ByteWindow × Bytes × Bytes}
    {r t : α → Nat → Gf256} (xs : List α)
    (hstep : ∀ y ∈ xs, ∀ recovery product x, w.Dense recovery product x →
      w.Dense (recovery + r y) (product + t y) (f x y))
    {recovery product : Nat → Gf256} {x : ByteWindow × Bytes × Bytes}
    (h : w.Dense recovery product x) :
    w.Dense (recovery + (xs.map r).sum) (product + (xs.map t).sum) (xs.foldl f x) := by
  induction xs generalizing recovery product x with
  | nil => simpa using h
  | cons y ys ih =>
      have hdone := ih (fun z hz => hstep z (List.mem_cons_of_mem _ hz))
        (hstep y List.mem_cons_self _ _ _ h)
      simpa [add_assoc] using hdone

/-- One bit adds its sum to one of the two. -/
theorem Dense.bit (hw : w.Shows p base first) (hs : w.SumsHold p base first q) {row l bit : Nat}
    (hl : l < columnLaneCount) {recovery product : Nat → Gf256}
    {x : ByteWindow × Bytes × Bytes} (h : w.Dense recovery product x) :
    w.Dense (recovery + if bit < columnSumCount then bitSum p row q (base + w.count) l bit else 0)
      (product + if bit < columnSumCount then 0 else bitSum p row q (base + w.count) l bit)
      (addDenseBit row l x bit) := by
  have hj : bit % columnSumCount < columnSumCount := Nat.mod_lt _ (by decide)
  unfold addDenseBit bitSum
  by_cases hset : (getRowOpcode l row).testBit bit = true
  · simp only [hset, if_true]
    obtain ⟨hrolls, hnext, hsum⟩ := x.1.getSum_spec hj (le_refl x.1.count) l
    have hall := h.rolls.trans hrolls
    -- the sum has all packets of its lane
    have hvec : vec (x.1.getSum l (bit % columnSumCount) x.1.count).1 =
        laneSum p (bit % columnSumCount) l q (base + w.count) := by
      have hend := (hall.holds hw hs l hl _ hj).at_end (hall.shows hw)
        (by rw [hall.count, ← h.rolls.count]; exact hnext)
      rw [hall.count] at hend
      rw [hsum, hend]
    have hlongest : x.1.longestPacket = w.longestPacket :=
      congrArg EncoderPacketWindow.longestPacket h.rolls.window
    rw [hlongest]
    split
    · refine ⟨hall, by simpa using h.recovery_length, h.product_length, ?_, ?_⟩
      · rw [← h.recovery_length, vec_addMem_take, hvec, h.recovery, h.recovery_length, map_add]
      · rw [add_zero]
        exact h.product
    · refine ⟨hall, h.recovery_length, by simpa using h.product_length, ?_, ?_⟩
      · rw [add_zero]
        exact h.recovery
      · rw [← h.product_length, vec_addMem_take, hvec, h.product, h.product_length, map_add]
  · simpa [hset] using h

theorem vec_replicate_zero (n : Nat) : vec (List.replicate n 0) = 0 := by
  have hgrow : growZeroPadded [] n = List.replicate n 0 := by simp [growZeroPadded]
  rw [← hgrow, vec_growZeroPadded, vec_nil]

/-- **`AddDenseColumns`** rolls all sums that it uses to the end of the window. -/
theorem addDenseColumns_spec (hw : w.Shows p base first) (hs : w.SumsHold p base first q)
    (row : Nat) (rx : Gf256) :
    let zeros := List.replicate w.longestPacket 0
    let done := w.addDenseColumns row zeros zeros
    (∃ rolled, w.Rolls rolled ∧ done.1 = { rolled with sumEndElement := w.count }) ∧
    done.2.1.length = w.longestPacket ∧ done.2.2.length = w.longestPacket ∧
    vec done.2.1 + rx • vec done.2.2 = upTo w.longestPacket
      (∑ k ∈ Ico q (base + w.count), opcodeValue (getRowOpcode (k % columnLaneCount) row)
        ⟨getColumnValue (k % siamesePacketNumCount)⟩ rx • vec (p k)) := by
  intro zeros done
  have hstart : w.Dense 0 0 (w, zeros, zeros) := by
    refine ⟨Rolls.refl w, ?_, ?_, ?_, ?_⟩
    · exact List.length_replicate ..
    · exact List.length_replicate ..
    · rw [map_zero]
      exact vec_replicate_zero _
    · rw [map_zero]
      exact vec_replicate_zero _
  have hdone := Dense.foldl (List.range columnLaneCount)
    (f := fun x l => (List.range (2 * columnSumCount)).foldl (addDenseBit row l) x)
    (fun l hl _ _ x hx => Dense.foldl (List.range (2 * columnSumCount))
      (fun bit _ _ _ y hy => hy.bit hw hs (List.mem_range.mp hl)) hx) hstart
  refine ⟨⟨_, hdone.rolls, ?_⟩, hdone.recovery_length, hdone.product_length, ?_⟩
  · rw [← hdone.rolls.count]
    rfl
  · have hrecovery : vec done.2.1 = upTo w.longestPacket (∑ l ∈ range columnLaneCount,
        ∑ bit ∈ range (2 * columnSumCount),
          if bit < columnSumCount then bitSum p row q (base + w.count) l bit else 0) := by
      rw [← zero_add (∑ l ∈ range columnLaneCount, _)]
      exact hdone.recovery
    have hproduct : vec done.2.2 = upTo w.longestPacket (∑ l ∈ range columnLaneCount,
        ∑ bit ∈ range (2 * columnSumCount),
          if bit < columnSumCount then 0 else bitSum p row q (base + w.count) l bit) := by
      rw [← zero_add (∑ l ∈ range columnLaneCount, _)]
      exact hdone.product
    rw [hrecovery, hproduct, ← map_smul, ← map_add, smul_sum, ← sum_add_distrib, ← sum_bitSum]
    refine congrArg _ (sum_congr rfl fun l _ => ?_)
    rw [smul_sum, ← sum_add_distrib]
    refine sum_congr rfl fun bit _ => ?_
    split <;> simp

theorem SumsHold.withEnd (h : w.SumsHold p base first q) (sumEndElement : Nat) :
    ({ w with sumEndElement := sumEndElement } : ByteWindow).SumsHold p base first q :=
  fun l hl j hj =>
    have hlane := h l hl j hj
    ⟨hlane.lane, hlane.first_le, hlane.lt, hlane.start, hlane.value⟩

/-- Sums that were rolled go on from where they are. -/
theorem Rolls.running {w' : ByteWindow} (hrolls : w.Rolls w') (h : w.Filled p n a base first)
    (hq : w.Running p a base first q) (sumEndElement : Nat) :
    ({ w' with sumEndElement := sumEndElement } : ByteWindow).Running p a base first q := by
  have hholds := (hrolls.holds h.shows hq.holds).withEnd sumEndElement
  have hwindow := hrolls.window
  obtain ⟨w', packets, lanes⟩ := w'
  dsimp only at hwindow
  subst hwindow
  exact ⟨hq.le, hq.start_le, hq.column, hq.erased, hholds⟩

theorem Rolls.filled {w' : ByteWindow} (hrolls : w.Rolls w') (h : w.Filled p n a base first)
    (hq : w.Running p a base first q) (sumEndElement : Nat) :
    ({ w' with sumEndElement := sumEndElement } : ByteWindow).Filled p n a base first := by
  have hwindow := hrolls.window
  have hshows := hrolls.shows h.shows
  have hrunning := hrolls.running h hq sumEndElement
  obtain ⟨w', packets, lanes⟩ := w'
  dsimp only at hwindow
  subst hwindow
  exact ⟨h.counted, h.column, h.acked, h.lt, h.first_le, ⟨hshows.aligned, hshows.element⟩,
    h.longest, fun _ => ⟨q, hrunning⟩⟩

theorem Rolls.carries {w' : ByteWindow} (hrolls : w.Rolls w') (h : w.Filled p n a base first)
    (hc : w.Carries p n a) (hq : w.Running p a base first q) (sumEndElement : Nat) :
    ({ w' with sumEndElement := sumEndElement } : ByteWindow).Carries p n a := by
  have hfilled := hrolls.filled h hq sumEndElement
  have hwindow := hrolls.window
  have hpackets := hrolls.packets
  obtain ⟨w', packets, lanes⟩ := w'
  dsimp only at hwindow hpackets
  subst hwindow hpackets
  exact ⟨hc.holds.of_eq rfl rfl rfl rfl, hc.sizes, fun _ => ⟨base, first, hfilled⟩⟩

/-! ## Light columns -/

theorem below_lt (r : PcgRandom) {count : Nat} (h : 0 < count) : (r.below count).1 < count :=
  Nat.mod_lt _ h

/-- The loop over the light columns adds the packets that a decoder reads from the footer. -/
theorem addLightColumns_spec (h : w.Filled p n a base first) {r : RecoveryPacket}
    (hstart : r.elementStart = a) (hcount : r.metadata.ldpcCount = n - a) (k : Nat)
    (prng : PcgRandom) (recovery product : Bytes) (hrecovery : w.longestPacket ≤ recovery.length)
    (hproduct : w.longestPacket ≤ product.length) :
    let done := w.addLightColumns (n - a) k prng recovery product
    done.1.length = recovery.length ∧ done.2.length = product.length ∧
    vec done.1 + r.rowValue • vec done.2 = vec recovery + r.rowValue • vec product +
      ((r.lightPairs k prng).map fun x => x.2 • vec (p x.1)).sum := by
  have hpos : 0 < n - a := by
    have := h.acked
    have := h.counted
    have := h.lt
    omega
  have helement : ∀ i < n - a,
      (w.getWindowElement (w.firstUnremovedElement + i)).buffer = p (a + i) ∧
        (p (a + i)).length ≤ w.longestPacket := by
    intro i hi
    have hacked := h.acked
    have hcounted := h.counted
    have hfirst := h.first_le
    rw [h.shows.element (w.firstUnremovedElement + i) (by omega) (by omega), ← Nat.add_assoc,
      hacked]
    exact ⟨rfl, h.longest _ (by omega) (by omega)⟩
  induction k generalizing prng recovery product with
  | zero => simp [addLightColumns, RecoveryPacket.lightPairs]
  | succ k ih =>
      obtain ⟨hone, honele⟩ := helement _ (below_lt prng hpos)
      obtain ⟨hrx, hrxle⟩ := helement _ (below_lt (prng.below (n - a)).2 hpos)
      obtain ⟨hlength, hlength', hvec⟩ := ih ((prng.below (n - a)).2.below (n - a)).2
        (addMem recovery (p (a + (prng.below (n - a)).1)))
        (addMem product (p (a + ((prng.below (n - a)).2.below (n - a)).1)))
        (by simpa using hrecovery) (by simpa using hproduct)
      rw [addLightColumns, hone, hrx]
      refine ⟨by simpa using hlength, by simpa using hlength', ?_⟩
      rw [hvec, vec_addMem (honele.trans hrecovery), vec_addMem (hrxle.trans hproduct),
        RecoveryPacket.lightPairs, hstart, hcount]
      simp only [List.map_cons, List.sum_cons, one_smul, smul_add]
      abel

end ByteWindow

/-- The packets that light columns name, each with all the values it is named with. -/
theorem sum_lightAt (light : List (Nat × Gf256)) (hrange : ∀ x ∈ light, x.1 ∈ Ico q n) :
    ∑ k ∈ Ico q n, RecoveryPacket.lightAt light (numbered k) • vec (p k) =
      (light.map fun x => x.2 • vec (p x.1)).sum := by
  induction light with
  | nil => simp [RecoveryPacket.lightAt]
  | cons x xs ih =>
      simp only [RecoveryPacket.lightAt_cons, add_smul, sum_add_distrib]
      rw [ih fun y hy => hrange y (List.mem_cons_of_mem _ hy), List.map_cons, List.sum_cons]
      congr 1
      rw [sum_eq_single_of_mem x.1 (hrange x List.mem_cons_self)]
      · simp [numbered]
      · intro k _ hne
        rw [if_neg fun heq => hne heq.symm, zero_smul]

theorem lightPairs_mem (r : RecoveryPacket) (hpos : 0 < r.metadata.ldpcCount) (k : Nat)
    (prng : PcgRandom) : ∀ x ∈ r.lightPairs k prng,
      x.1 ∈ Ico r.elementStart (r.elementStart + r.metadata.ldpcCount) := by
  induction k generalizing prng with
  | zero => simp [RecoveryPacket.lightPairs]
  | succ k ih =>
      intro x hx
      have hlt := ByteWindow.below_lt prng hpos
      have hlt' := ByteWindow.below_lt (prng.below r.metadata.ldpcCount).2 hpos
      rw [RecoveryPacket.lightPairs] at hx
      rcases List.mem_cons.mp hx with rfl | hx
      · exact mem_Ico.mpr ⟨Nat.le_add_right _ _, by dsimp only; omega⟩
      rcases List.mem_cons.mp hx with rfl | hx
      · exact mem_Ico.mpr ⟨Nat.le_add_right _ _, by dsimp only; omega⟩
      · exact ih _ x hx

namespace ByteEncoder

variable {s : ByteEncoder}

theorem upTo_list_sum {α : Type} {f : α → Nat → Gf256} {m : Nat} (xs : List α)
    (h : ∀ x ∈ xs, upTo m (f x) = f x) : upTo m (xs.map f).sum = (xs.map f).sum := by
  rw [map_list_sum, List.map_map]
  exact congrArg _ (List.map_congr_left h)

/-- The coefficients of a row that is made from sums. -/
theorem sum_coefficient_sums {r : RecoveryPacket} (hr : ¬r.IsCauchy) (hq : q ≤ a) (ha : a < n)
    (hnear : n - q ≤ siameseMaxPackets)
    (hmetadata : r.metadata = ⟨n - q, n - a, q % siamesePacketNumCount⟩)
    (hstart : r.elementStart = a) :
    ∑ k ∈ Ico q n, r.coefficient (numbered k) • vec (p k) =
      ∑ k ∈ Ico q n, opcodeValue (getRowOpcode (k % columnLaneCount) r.row)
        ⟨getColumnValue (k % siamesePacketNumCount)⟩ r.rowValue • vec (p k) +
      ((r.lightPairs r.pairCount (PcgRandom.seed r.row (n - a))).map fun x =>
        x.2 • vec (p x.1)).sum := by
  have hldpc : r.metadata.ldpcCount = n - a := by rw [hmetadata]
  have hlight : r.light = r.lightPairs r.pairCount (PcgRandom.seed r.row (n - a)) := by
    rw [RecoveryPacket.light, if_neg hr, hldpc]
  have hmem : ∀ x ∈ r.light, x.1 ∈ Ico q n := by
    intro x hx
    rw [hlight] at hx
    have hx := lightPairs_mem r (by omega) _ _ x hx
    rw [hstart, hldpc] at hx
    have hx := mem_Ico.mp hx
    exact mem_Ico.mpr (by omega)
  rw [← hlight, ← sum_lightAt _ hmem, ← sum_add_distrib]
  refine sum_congr rfl fun k hk => ?_
  have hk := mem_Ico.mp hk
  have hcovers : r.Covers (numbered k).column :=
    covers_numbered hk.1 hk.2 hnear (by rw [hmetadata]) (by rw [hmetadata])
  have hlane : k % siamesePacketNumCount % columnLaneCount = k % columnLaneCount := by
    unfold siamesePacketNumCount columnLaneCount
    omega
  rw [RecoveryPacket.coefficient, if_pos hcovers, RecoveryPacket.denseValue, if_neg hr, add_smul]
  show opcodeValue (getRowOpcode (k % siamesePacketNumCount % columnLaneCount) r.row) _ _ • _ +
    _ = _
  rw [hlane]
  rfl

/-- **A packet from running sums** combines all packets that are in the sums. -/
theorem combines_sums (h : s.window.Filled p n a base first) (hc : s.window.Carries p n a)
    (hq : s.window.Running p a base first q) (hrow : s.nextRow < rowValuePeriod)
    (hmany : siameseCauchyThreshold < n - q) (hnear : n - q ≤ siameseMaxPackets) :
    Combines p n a q s.generateSumPacket.1 := by
  have hlt := lt_of_filled h
  have hcount := (unacknowledged_le hc).1
  obtain ⟨⟨rolled, hrolls, hdone⟩, hlength, hlength', hdense⟩ :=
    s.window.addDenseColumns_spec h.shows hq.holds s.nextRow ⟨getRowValue s.nextRow⟩
  have hfilled := hrolls.filled h hq s.window.count
  rw [← hdone] at hfilled
  have hwindow : (s.window.addDenseColumns s.nextRow (List.replicate s.window.longestPacket 0)
      (List.replicate s.window.longestPacket 0)).1.toEncoderPacketWindow =
      { s.window.toEncoderPacketWindow with sumEndElement := s.window.count } := by
    rw [hdone, ← hrolls.window]
  -- what the packet is, with the light columns that a decoder reads from its footer
  have hpacket : ∃ light : Bytes × Bytes,
      s.generateSumPacket.1 = {
        body := muladdMem light.1 (getRowValue s.nextRow) light.2
        metadata := ⟨n - q, n - a, q % siamesePacketNumCount⟩
        row := s.nextRow } ∧
      light = (s.window.addDenseColumns s.nextRow (List.replicate s.window.longestPacket 0)
        (List.replicate s.window.longestPacket 0)).1.addLightColumns (n - a)
          ((n - a + pairAddRate - 1) / pairAddRate) (PcgRandom.seed s.nextRow (n - a))
          (s.window.addDenseColumns s.nextRow (List.replicate s.window.longestPacket 0)
            (List.replicate s.window.longestPacket 0)).2.1
          (s.window.addDenseColumns s.nextRow (List.replicate s.window.longestPacket 0)
            (List.replicate s.window.longestPacket 0)).2.2 := by
    refine ⟨_, ?_, rfl⟩
    have herased := hq.erased
    have hcounted := h.counted
    have hle := hq.le
    have hstart := hq.start_le
    have hfirst := h.lt
    have hlight : s.window.count - s.window.firstUnremovedElement = n - a := hcount
    have hsums : s.window.count - s.window.sumStartElement + s.window.sumErasedCount = n - q := by
      omega
    unfold generateSumPacket
    dsimp only
    rw [hwindow]
    dsimp only
    rw [hlight, hsums, hcount, hq.column]
  obtain ⟨light, hpacket, hlight⟩ := hpacket
  have hlongest : (s.window.addDenseColumns s.nextRow
      (List.replicate s.window.longestPacket 0)
      (List.replicate s.window.longestPacket 0)).1.longestPacket = s.window.longestPacket := by
    rw [hwindow]
  rw [hpacket]
  generalize s.window.addDenseColumns s.nextRow (List.replicate s.window.longestPacket 0)
    (List.replicate s.window.longestPacket 0) = x at hlength hlength' hdense hfilled hlight hlongest
  let r : RecoveryPacket := {
    metadata := ⟨n - q, n - a, q % siamesePacketNumCount⟩
    row := s.nextRow
    elementStart := a
    elementEnd := n
    buffer := muladdMem light.1 (getRowValue s.nextRow) light.2 }
  obtain ⟨hlength₁, hlength₂, hvec⟩ := ByteWindow.addLightColumns_spec hfilled (r := r) rfl rfl
    ((n - a + pairAddRate - 1) / pairAddRate) (PcgRandom.seed s.nextRow (n - a)) x.2.1 x.2.2
    (by rw [hlength, hlongest]) (by rw [hlength', hlongest])
  rw [← hlight] at hlength₁ hlength₂ hvec
  have hbody : (muladdMem light.1 (getRowValue s.nextRow) light.2).length =
      s.window.longestPacket := by rw [length_muladdMem, hlength₁, hlength]
  have hmem := lightPairs_mem r (by show 0 < n - a; omega) r.pairCount
    (PcgRandom.seed s.nextRow (n - a))
  have hthreshold : 1 < siameseCauchyThreshold := by decide
  refine ⟨hq.le, hlt, hnear, rfl, hrow, fun _ => by omega, fun _ => by omega,
    fun k hge hk => ?_, ?_⟩
  · exact (h.longest k hge hk).trans hbody.ge
  · have hcounted := h.counted
    rw [hcounted] at hdense
    show vec (muladdMem light.1 _ light.2) = upTo (muladdMem light.1 _ light.2).length
      (∑ k ∈ Ico q n, r.coefficient (numbered k) • vec (p k))
    rw [hbody, vec_muladdMem (by rw [hlength₂, hlength₁, hlength, hlength']),
      sum_coefficient_sums (r := r) (by show ¬(n - q ≤ _); omega) hq.le hlt hnear rfl rfl,
      map_add, upTo_list_sum _ fun y hy => ?_]
    · show vec light.1 + r.rowValue • vec light.2 = _
      rw [hvec]
      show vec x.2.1 + (⟨getRowValue s.nextRow⟩ : Gf256) • vec x.2.2 + _ = _
      rw [hdense]
      rfl
    · have hy := mem_Ico.mp (hmem y hy)
      have hlt : y.1 < a + (n - a) := hy.2
      rw [map_smul, upTo_vec (h.longest y.1 hy.1 (by omega))]

/-- What an encoder keeps: its window, and rows that are in range. -/
structure Keeps (p : Nat → Bytes) (n a : Nat) (s : ByteEncoder) : Prop where
  carries : s.window.Carries p n a
  row : s.nextRow < rowValuePeriod
  cauchyRow : s.nextCauchyRow < cauchyMaxRows

theorem generateCauchyPacket_keeps (h : s.Keeps p n a) :
    s.generateCauchyPacket.2.Keeps p n a := by
  unfold generateCauchyPacket
  dsimp only
  split
  · exact ⟨h.carries, h.row, h.cauchyRow⟩
  · refine ⟨h.carries, h.row, ?_⟩
    dsimp only
    split
    · decide
    · omega

/-- The window after a packet was made from its sums -/
theorem generateSumPacket_window (h : s.window.Filled p n a base first)
    (hc : s.window.Carries p n a) (hq : s.window.Running p a base first q) :
    s.generateSumPacket.2.window.Carries p n a := by
  obtain ⟨⟨rolled, hrolls, hdone⟩, -⟩ :=
    s.window.addDenseColumns_spec h.shows hq.holds s.nextRow ⟨getRowValue s.nextRow⟩
  show (s.window.addDenseColumns s.nextRow _ _).1.Carries p n a
  rw [hdone]
  exact hrolls.carries h hc hq s.window.count

/-- **`Encode`** makes a recovery packet that combines packets, unless the window is empty. -/
theorem generate_spec (h : s.Keeps p n a) (hne : s.window.count ≠ 0) :
    (∃ q, Combines p n a q s.generate.1) ∧ s.generate.2.Keeps p n a := by
  obtain ⟨base, first, hf⟩ := h.carries.filled hne
  obtain ⟨hcount, hmax⟩ := unacknowledged_le h.carries
  have hcounted := hf.counted
  unfold generate
  dsimp only
  by_cases hone : s.window.getUnacknowledgedCount = 1
  · rw [if_pos hone]
    exact ⟨⟨a, combines_single hf h.carries hone⟩, h⟩
  rw [if_neg hone]
  by_cases hstale : s.window.sumEndElement ≤ s.window.sumStartElement ∨
      siameseMaxPackets ≤ s.window.count + s.window.sumErasedCount - s.window.sumStartElement
  · rw [if_pos hstale]
    by_cases hfew : s.window.getUnacknowledgedCount ≤ siameseCauchyThreshold
    · rw [if_pos hfew]
      exact ⟨⟨a, combines_cauchy hf h.carries h.cauchyRow hone hfew⟩, generateCauchyPacket_keeps h⟩
    · -- the sums start over at the first packet that is not acknowledged
      rw [if_neg hfew]
      obtain ⟨hreset, hrunning⟩ := hf.resetSums
      have hcarries : (s.window.resetSums s.window.firstUnremovedElement).Carries p n a :=
        ⟨h.carries.holds.of_eq rfl rfl rfl rfl, h.carries.sizes, fun _ => ⟨base, first, hreset⟩⟩
      refine ⟨⟨a, combines_sums (s := { s with window := _ }) hreset hcarries hrunning h.row
        (by omega) hmax⟩, ⟨generateSumPacket_window (s := { s with window := _ }) hreset hcarries
        hrunning, ?_, h.cauchyRow⟩⟩
      show (if rowValuePeriod ≤ s.nextRow + 1 then 0 else s.nextRow + 1) < rowValuePeriod
      split
      · decide
      · omega
  rw [if_neg hstale]
  have hrunning : s.window.sumStartElement < s.window.sumEndElement := by omega
  obtain ⟨q, hq⟩ := hf.sums hrunning
  have herased := hq.erased
  by_cases hfew : s.window.getUnacknowledgedCount ≤ siameseSumResetThreshold ∨
      s.window.count + s.window.sumErasedCount - s.window.sumStartElement ≤ siameseCauchyThreshold
  · rw [if_pos hfew]
    -- the sums are not used any more
    have hstopped : ({ s.window with
        sumEndElement := s.window.sumStartElement } : ByteWindow).Filled p n a base first :=
      ⟨hf.counted, hf.column, hf.acked, hf.lt, hf.first_le,
        ⟨hf.shows.aligned, hf.shows.element⟩, hf.longest,
        fun hlt => absurd hlt (Nat.lt_irrefl _)⟩
    have hkeeps : ({ s with window := { s.window with
        sumEndElement := s.window.sumStartElement } } : ByteEncoder).Keeps p n a :=
      ⟨⟨h.carries.holds.of_eq rfl rfl rfl rfl, h.carries.sizes, fun _ => ⟨base, first, hstopped⟩⟩,
        h.row, h.cauchyRow⟩
    have hfew' : s.window.getUnacknowledgedCount ≤ siameseCauchyThreshold := by
      have hle := hq.le
      have hreset : siameseSumResetThreshold ≤ siameseCauchyThreshold := by decide
      omega
    exact ⟨⟨a, combines_cauchy hstopped hkeeps.carries h.cauchyRow hone hfew'⟩,
      generateCauchyPacket_keeps hkeeps⟩
  · rw [if_neg hfew]
    refine ⟨⟨q, combines_sums hf h.carries hq h.row (by omega) (by omega)⟩,
      ⟨generateSumPacket_window hf h.carries hq, ?_, h.cauchyRow⟩⟩
    show (if rowValuePeriod ≤ s.nextRow + 1 then 0 else s.nextRow + 1) < rowValuePeriod
    split
    · decide
    · omega

end ByteEncoder

end FecRelay
