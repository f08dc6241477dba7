import FecRelay.Codec.HoleSums
import FecRelay.Codec.SumRows

/-!
# What is left of a recovery packet

The decoder takes from a recovery packet what it received of the packets that the row covers,
with the sums that it keeps or from the window. What is left is the combination of the packets
that are lost, with the coefficients that the matrix has for them.
-/

namespace FecRelay

open FecRelay.Base Finset

/-- The recovery packet as it was sent -/
def RecoveryPacket.sent (r : RecoveryPacket) : EncodedPacket := ⟨r.buffer, r.metadata, r.row⟩

/-- A recovery packet that combines the packets from number `q` on, of which `n` were added and
`a` acknowledged, in a window that starts at the number `base` -/
structure Arrived (p : Nat → Bytes) (n a q base : Nat) (r : RecoveryPacket) : Prop where
  base_le : base ≤ a
  elementStart : r.elementStart = a - base
  elementEnd : r.elementEnd = n - base
  combines : Combines p n a q r.sent

variable {p : Nat → Bytes} {got : Finset Nat} {n a q base : Nat} {r : RecoveryPacket}

theorem Arrived.cauchy (h : Arrived p n a q base r) (hr : r.IsCauchy) :
    q = a ∧ r.row ≤ cauchyMaxRows := by
  have hmetadata : r.metadata = ⟨n - q, n - a, q % siamesePacketNumCount⟩ := h.combines.metadata
  have hsum : r.metadata.sumCount ≤ siameseCauchyThreshold := hr
  rw [hmetadata] at hsum
  exact h.combines.whole hsum

/-- The coefficient of a packet in the row, by its number -/
def RecoveryPacket.coefficientOf (r : RecoveryPacket) (n a k : Nat) : Gf256 :=
  (r.sent.received n a).coefficient (numbered k)

theorem lightAt_lightPairs {r r' : RecoveryPacket} {c c' : ColumnInfo}
    (hmetadata : r'.metadata = r.metadata) (hrow : r'.row = r.row)
    (hstart : r'.elementStart = base + r.elementStart) (helement : c'.element = base + c.element)
    (k : Nat) (prng : PcgRandom) :
    RecoveryPacket.lightAt (r'.lightPairs k prng) c' =
      RecoveryPacket.lightAt (r.lightPairs k prng) c := by
  have hvalue : r'.rowValue = r.rowValue := by rw [RecoveryPacket.rowValue, hrow]; rfl
  induction k generalizing prng with
  | zero => rfl
  | succ k ih =>
      simp only [RecoveryPacket.lightPairs, RecoveryPacket.lightAt_cons, ih, hmetadata, hvalue,
        hstart, helement, Nat.add_assoc, Nat.add_left_cancel_iff]

/-- In the window the coefficient is found by the element. -/
theorem Arrived.coefficient (h : Arrived p n a q base r) (e : Nat) :
    r.coefficient ⟨e, (base + e) % siamesePacketNumCount⟩ = r.coefficientOf n a (base + e) := by
  have hstart : (r.sent.received n a).elementStart = base + r.elementStart := by
    show a = _
    rw [h.elementStart, Nat.add_sub_cancel' h.base_le]
  have hlight : RecoveryPacket.lightAt (r.sent.received n a).light (numbered (base + e)) =
      RecoveryPacket.lightAt r.light ⟨e, (base + e) % siamesePacketNumCount⟩ := by
    unfold RecoveryPacket.light
    split
    next hcauchy =>
      rw [if_pos (show r.IsCauchy from hcauchy)]
      rfl
    next hsums =>
      rw [if_neg (show ¬r.IsCauchy from hsums)]
      exact @lightAt_lightPairs base r (r.sent.received n a) ⟨e, _⟩ (numbered (base + e)) rfl rfl
        hstart rfl _ _
  rw [RecoveryPacket.coefficientOf, RecoveryPacket.coefficient, RecoveryPacket.coefficient, hlight]
  rfl

/-- A row does not cover what is before its first packet or after its last one. -/
theorem Arrived.not_covers (h : Arrived p n a q base r) {k : Nat} (hk : k < q ∨ n ≤ k)
    (hnear : k < siamesePacketNumCount / 2) (hend : n ≤ siamesePacketNumCount / 2) :
    ¬r.Covers (k % siamesePacketNumCount) := by
  have hmetadata : r.metadata = ⟨n - q, n - a, q % siamesePacketNumCount⟩ := h.combines.metadata
  have hle := h.combines.le
  have hlt := h.combines.lt
  rw [RecoveryPacket.Covers, hmetadata, subtractColumns]
  rcases hk with hk | hk
  · have hbehind := Cyclic.distance_of_behind (p := siamesePacketNumCount) hk
      (by unfold siamesePacketNumCount at *; omega)
    dsimp only
    unfold siamesePacketNumCount at *
    omega
  · rw [Cyclic.distance_of_near (by omega) (by unfold siamesePacketNumCount at *; omega)]
    dsimp only
    omega

/-- A packet that the row does not cover has no part in it. -/
theorem Arrived.coefficientOf_eq_zero (h : Arrived p n a q base r) {k : Nat}
    (hk : k < q ∨ n ≤ k) (hnear : k < siamesePacketNumCount / 2)
    (hend : n ≤ siamesePacketNumCount / 2) : r.coefficientOf n a k = 0 := by
  have hmetadata : r.metadata = ⟨n - q, n - a, q % siamesePacketNumCount⟩ := h.combines.metadata
  have hle := h.combines.le
  have hlt := h.combines.lt
  have hcovers : ¬(r.sent.received n a).Covers (numbered k).column := h.not_covers hk hnear hend
  have hlight : RecoveryPacket.lightAt (r.sent.received n a).light (numbered k) = 0 := by
    have hne : ∀ x ∈ (r.sent.received n a).light, x.1 ≠ (numbered k).element := by
      intro x hx
      unfold RecoveryPacket.light at hx
      split at hx
      · cases hx
      · have hldpc : (r.sent.received n a).metadata.ldpcCount = n - a :=
          congrArg (·.ldpcCount) hmetadata
        have hx := mem_Ico.mp (lightPairs_mem _ (by omega) _ _ x hx)
        rw [hldpc] at hx
        have hstart : (r.sent.received n a).elementStart = a := rfl
        have helement : (numbered k).element = k := rfl
        omega
    unfold RecoveryPacket.lightAt
    rw [List.filter_eq_nil_iff.mpr fun x hx => by simpa using hne x hx]
    rfl
  rw [RecoveryPacket.coefficientOf, RecoveryPacket.coefficient, if_neg hcovers, hlight, add_zero]

namespace SumWindow

variable {w w' : SumWindow}

/-! ## Parity and Cauchy rows -/

theorem vec_muladdMem_take (z : Bytes) (y : UInt8) (x : Bytes) :
    vec (muladdMem z y (x.take z.length)) = vec z + (⟨y⟩ : Gf256) • upTo z.length (vec x) := by
  rw [vec_muladdMem (by rw [List.length_take]; omega), vec_take]

/-- The loop over the packets of a parity or Cauchy row -/
theorem eliminateElements_spec (hw : w.Shows p got base) (r : RecoveryPacket) (es : List Nat)
    (buffer : Bytes) :
    (es.foldl (w.eliminateElement r) buffer).length = buffer.length ∧
    vec (es.foldl (w.eliminateElement r) buffer) = vec buffer + upTo buffer.length
      (es.map fun e => (if r.row = 0 then 1 else cauchyElement (r.row - 1)
        ((base + e) % siamesePacketNumCount % cauchyMaxColumns)) •
          vec (present p got (base + e))).sum := by
  induction es generalizing buffer with
  | nil => simp
  | cons e es ih =>
      have hone : (w.eliminateElement r buffer e).length = buffer.length ∧
          vec (w.eliminateElement r buffer e) = vec buffer + upTo buffer.length
            ((if r.row = 0 then 1 else cauchyElement (r.row - 1)
              ((base + e) % siamesePacketNumCount % cauchyMaxColumns)) •
                vec (present p got (base + e))) := by
        unfold eliminateElement
        dsimp only
        rw [hw.original_eq]
        by_cases hrow : r.row = 0
        · rw [if_pos hrow, if_pos hrow, length_addMem, vec_addMem_take, one_smul]
          exact ⟨rfl, rfl⟩
        · rw [if_neg hrow, if_neg hrow, length_muladdMem, vec_muladdMem_take, map_smul]
          exact ⟨rfl, rfl⟩
      obtain ⟨hlength, hvec⟩ := ih (w.eliminateElement r buffer e)
      rw [List.foldl_cons, hlength, hvec, hone.1, hone.2, List.map_cons, List.sum_cons, map_add,
        add_assoc]
      exact ⟨rfl, rfl⟩

/-! ## Rows from running sums -/

/-- What the recovery packet and the product are so far. -/
structure Dense (w : SumWindow) (r : RecoveryPacket) (recovery product : Nat → Gf256)
    (x : SumWindow × Bytes × Bytes) : Prop where
  rolls : Rolls r.elementEnd w x.1
  recovery_length : x.2.1.length = r.buffer.length
  product_length : x.2.2.length = r.buffer.length
  recovery : vec x.2.1 = vec r.buffer + upTo r.buffer.length recovery
  product : vec x.2.2 = upTo r.buffer.length product

theorem Dense.foldl {α : Type} {f : SumWindow × Bytes × Bytes → α → SumWindow × Bytes × Bytes}
    {s t : α → Nat → Gf256} (xs : List α)
    (hstep : ∀ y ∈ xs, ∀ recovery product x, Dense w r recovery product x →
      Dense w r (recovery + s y) (product + t y) (f x y))
    {recovery product : Nat → Gf256} {x : SumWindow × Bytes × Bytes}
    (h : Dense w r recovery product x) :
    Dense w r (recovery + (xs.map s).sum) (product + (xs.map t).sum) (xs.foldl f x) := by
  induction xs generalizing recovery product x with
  | nil => simpa using h
  | cons y ys ih =>
      have hdone := ih (fun z hz => hstep z (List.mem_cons_of_mem _ hz))
        (hstep y List.mem_cons_self _ _ _ h)
      simpa [add_assoc] using hdone

/-- One bit takes its sum from one of the two. -/
theorem Dense.bit (hw : w.Shows p got base) (hs : w.SumsHold (present p got) base q)
    (hup : w.UpTo base n) (hend : base + r.elementEnd = n) (hn : n ≤ base + w.count) {l bit : Nat}
    (hl : l < columnLaneCount) {recovery product : Nat → Gf256} {x : SumWindow × Bytes × Bytes}
    (h : Dense w r recovery product x) :
    Dense w r
      (recovery + if bit < columnSumCount then bitSum (present p got) r.row q n l bit else 0)
      (product + if bit < columnSumCount then 0 else bitSum (present p got) r.row q n l bit)
      (eliminateDenseBit r l x bit) := by
  have hj : bit % columnSumCount < columnSumCount := Nat.mod_lt _ (by decide)
  unfold eliminateDenseBit bitSum
  by_cases hset : (getRowOpcode l r.row).testBit bit = true
  · simp only [hset, if_true]
    have hcount : r.elementEnd ≤ x.1.count := by
      rw [h.rolls.count]
      omega
    obtain ⟨hrolls, hnext, hsum⟩ := x.1.getSum_spec hj hcount l
    have hall := h.rolls.trans hrolls
    have hvec : vec (x.1.getSum l (bit % columnSumCount) r.elementEnd).1 =
        laneSum (present p got) (bit % columnSumCount) l q n := by
      rw [hsum]
      exact (hall.holds hw hs l hl _ hj).at_end hw.aligned (by omega)
        (hall.upTo hend.le hup l hl _ hj)
    split
    · refine ⟨hall, by simpa using h.recovery_length, h.product_length, ?_, ?_⟩
      · rw [← h.recovery_length, vec_addMem_take, hvec, h.recovery, h.recovery_length, map_add,
          add_assoc]
      · rw [add_zero]
        exact h.product
    · refine ⟨hall, h.recovery_length, by simpa using h.product_length, ?_, ?_⟩
      · rw [add_zero]
        exact h.recovery
      · rw [← h.product_length, vec_addMem_take, hvec, h.product, h.product_length, map_add]
  · simpa [hset] using h

/-- The loop over the light columns -/
theorem eliminateLight_spec (hw : w.Shows p got base) (h : Arrived p n a q base r) (k : Nat)
    (prng : PcgRandom) (recovery product : Bytes) (hrecovery : recovery.length = r.buffer.length)
    (hproduct : product.length = r.buffer.length) :
    let done := w.eliminateLight r k prng recovery product
    done.1.length = r.buffer.length ∧ done.2.length = r.buffer.length ∧
    vec done.1 + r.rowValue • vec done.2 = vec recovery + r.rowValue • vec product +
      upTo r.buffer.length (((r.sent.received n a).lightPairs k prng).map fun x =>
        x.2 • vec (present p got x.1)).sum := by
  have hstart := h.elementStart
  have hbase := h.base_le
  have hmetadata : r.metadata = ⟨n - q, n - a, q % siamesePacketNumCount⟩ := h.combines.metadata
  have helement : ∀ i, (w.original (r.elementStart + i)).buffer = present p got (a + i) := by
    intro i
    have hnumber : base + (a - base + i) = a + i := by omega
    rw [original, hw.element, hstart, hnumber]
  induction k generalizing prng recovery product with
  | zero => simp [eliminateLight, RecoveryPacket.lightPairs, hrecovery, hproduct]
  | succ k ih =>
      rw [eliminateLight]
      simp only [helement]
      obtain ⟨hlength, hlength', hvec⟩ := ih
        ((prng.below r.metadata.ldpcCount).2.below r.metadata.ldpcCount).2
        (addMem recovery ((present p got
          (a + (prng.below r.metadata.ldpcCount).1)).take r.buffer.length))
        (addMem product ((present p got (a + ((prng.below r.metadata.ldpcCount).2.below
          r.metadata.ldpcCount).1)).take r.buffer.length))
        (by simpa using hrecovery) (by simpa using hproduct)
      refine ⟨hlength, hlength', ?_⟩
      rw [hvec, RecoveryPacket.lightPairs]
      show vec (addMem recovery _) + r.rowValue • vec (addMem product _) + _ = _ +
        upTo _ (((a + (prng.below r.metadata.ldpcCount).1, (1 : Gf256)) ::
          (a + ((prng.below r.metadata.ldpcCount).2.below r.metadata.ldpcCount).1, r.rowValue) ::
          _).map _).sum
      rw [← hrecovery, vec_addMem_take, hrecovery, ← hproduct, vec_addMem_take, hproduct]
      simp only [List.map_cons, List.sum_cons, one_smul, smul_add, map_add, map_smul]
      abel

/-! ## A whole row -/

/-- What is left of a recovery packet: the packets that are lost. -/
structure CombinesLost (p : Nat → Bytes) (got : Finset Nat) (n a : Nat) (r : RecoveryPacket)
    (buffer : Bytes) : Prop where
  length : buffer.length = r.buffer.length
  lost : vec buffer = ∑ k ∈ Ico a n with k ∉ got, r.coefficientOf n a k • vec (p k)

/-- The packets that were received are taken from the row, each with its coefficient. -/
theorem combinesLost_of_arrived (h : Arrived p n a q base r) (hacked : ∀ k, q ≤ k → k < a → k ∈ got)
    {buffer : Bytes} (hlength : buffer.length = r.buffer.length)
    (hvec : vec buffer = vec r.buffer + upTo r.buffer.length
      (∑ k ∈ Ico q n, r.coefficientOf n a k • vec (present p got k))) :
    CombinesLost p got n a r buffer := by
  have hle := h.combines.le
  have hterm : ∀ k ∈ Ico q n, r.coefficientOf n a k • vec (p k) +
      r.coefficientOf n a k • vec (present p got k) =
        if k ∉ got then r.coefficientOf n a k • vec (p k) else 0 := by
    intro k _
    by_cases hk : k ∈ got
    · rw [present_of_mem hk, if_neg (not_not.mpr hk)]
      exact sub_self (r.coefficientOf n a k • vec (p k))
    · rw [present_of_notMem hk, if_pos hk, vec_nil, smul_zero, add_zero]
  have hlost : {k ∈ Ico q n | k ∉ got} = {k ∈ Ico a n | k ∉ got} := by
    ext k
    simp only [mem_filter, mem_Ico]
    constructor
    · rintro ⟨⟨hq, hn⟩, hk⟩
      exact ⟨⟨not_lt.mp fun hlt => hk (hacked k hq hlt), hn⟩, hk⟩
    · rintro ⟨⟨ha, hn⟩, hk⟩
      exact ⟨⟨hle.trans ha, hn⟩, hk⟩
  refine ⟨hlength, ?_⟩
  have hcombination : vec r.buffer = upTo r.buffer.length
      (∑ k ∈ Ico q n, r.coefficientOf n a k • vec (p k)) := h.combines.combination
  nth_rewrite 1 [hvec, hcombination]
  rw [← map_add, ← sum_add_distrib, sum_congr rfl hterm, ← sum_filter, hlost, map_sum]
  refine sum_congr rfl fun k hk => ?_
  have hk := mem_Ico.mp (mem_filter.mp hk).1
  have hroom : (p k).length ≤ r.buffer.length := h.combines.room k hk.1 hk.2
  rw [map_smul, upTo_vec hroom]

/-- A parity or Cauchy row -/
theorem eliminateRecovery_cauchy (hw : w.Shows p got base) (h : Arrived p n a q base r)
    (hr : r.IsCauchy) (hacked : ∀ k, q ≤ k → k < a → k ∈ got) :
    ∃ buffer, w.eliminateRecovery r = some (buffer, w) ∧ CombinesLost p got n a r buffer := by
  have hmetadata : r.metadata = ⟨n - q, n - a, q % siamesePacketNumCount⟩ := h.combines.metadata
  have hqa : q = a := (h.cauchy hr).1
  have hbase := h.base_le
  have hlt := h.combines.lt
  obtain ⟨hlength, hvec⟩ := eliminateElements_spec hw r
    (List.range' r.elementStart (r.elementEnd - r.elementStart)) r.buffer
  refine ⟨_, if_pos hr, combinesLost_of_arrived h hacked hlength ?_⟩
  rw [hvec, hqa, sum_Ico_eq_sum_map]
  congr 2
  have hrange : List.range' a (n - a) =
      (List.range' r.elementStart (r.elementEnd - r.elementStart)).map (base + ·) := by
    rw [List.map_add_range', h.elementStart, h.elementEnd]
    congr 1 <;> omega
  rw [hrange, List.map_map]
  refine congrArg List.sum (List.map_congr_left fun e he => ?_)
  have he := List.mem_range'_1.mp he
  rw [h.elementStart, h.elementEnd] at he
  have hcovers : (r.sent.received n a).Covers ((base + e) % siamesePacketNumCount) :=
    covers_numbered (by omega) (by omega) h.combines.near (congrArg (·.sumCount) hmetadata)
      (congrArg (·.columnStart) hmetadata)
  have hcoefficient : r.coefficientOf n a (base + e) = if r.row = 0 then 1
      else cauchyElement (r.row - 1) ((base + e) % siamesePacketNumCount % cauchyMaxColumns) :=
    coefficient_cauchy hr hcovers
  show _ = r.coefficientOf n a (base + e) • _
  rw [hcoefficient]

/-- The loops over the lanes and bits take all sums that the opcodes name. -/
theorem eliminateDense_spec (hw : w.Shows p got base) (hs : w.SumsHold (present p got) base q)
    (hup : w.UpTo base n) (hend : base + r.elementEnd = n) (hn : n ≤ base + w.count) :
    Dense w r
      (∑ l ∈ range columnLaneCount, ∑ bit ∈ range (2 * columnSumCount),
        if bit < columnSumCount then bitSum (present p got) r.row q n l bit else 0)
      (∑ l ∈ range columnLaneCount, ∑ bit ∈ range (2 * columnSumCount),
        if bit < columnSumCount then 0 else bitSum (present p got) r.row q n l bit)
      ((List.range columnLaneCount).foldl (fun x laneIndex =>
        (List.range (2 * columnSumCount)).foldl (eliminateDenseBit r laneIndex) x)
        (w, r.buffer, List.replicate r.buffer.length 0)) := by
  have hstart : Dense w r 0 0 (w, r.buffer, List.replicate r.buffer.length 0) :=
    by
    refine ⟨Rolls.refl _ w, rfl, List.length_replicate, by simp, ?_⟩
    rw [map_zero]
    exact ByteWindow.vec_replicate_zero _
  have hlane : ∀ l ∈ List.range columnLaneCount, ∀ recovery product x,
      Dense w r recovery product x → Dense w r
        (recovery + ∑ bit ∈ range (2 * columnSumCount),
          if bit < columnSumCount then bitSum (present p got) r.row q n l bit else 0)
        (product + ∑ bit ∈ range (2 * columnSumCount),
          if bit < columnSumCount then 0 else bitSum (present p got) r.row q n l bit)
        ((List.range (2 * columnSumCount)).foldl (eliminateDenseBit r l) x) := by
    intro l hl recovery product x hx
    exact Dense.foldl _ (fun bit _ _ _ _ hy => hy.bit hw hs hup hend hn (List.mem_range.mp hl)) hx
  have hlanes := Dense.foldl _ hlane hstart
  rwa [zero_add, zero_add] at hlanes

/-- A row that is made from running sums. Afterwards they have what was received of all
packets that it covers. -/
theorem eliminateRecovery_sums {after : Finset Nat} (hp : ∀ k, p k ≠ []) (hw : w.Shows p got base)
    (hpending : w.Pending got) (hs : w.Summing p got after base) (h : Arrived p n a q base r)
    (hr : ¬r.IsCauchy) (hn : n ≤ base + w.count) (hacked : ∀ k, q ≤ k → k < a → k ∈ got)
    (havailable : w.Available base q (n - q)) :
    ∃ buffer w', w.eliminateRecovery r = some (buffer, w') ∧ CombinesLost p got n a r buffer ∧
      w'.toDecoderPacketWindow = w.toDecoderPacketWindow ∧ w'.recoveredColumns = [] ∧
      w'.SumsHold (present p got) base q ∧ w'.UpTo base n ∧ w'.sumColumnStart = q ∧
      w'.sumColumnCount = n - q := by
  have hnear := hw.near
  have hle := h.combines.le
  have hlt := h.combines.lt
  have hbase := h.base_le
  have hmod : q % siamesePacketNumCount = q :=
    Nat.mod_eq_of_lt (by unfold siamesePacketNumCount at *; omega)
  have hmetadata : r.metadata = ⟨n - q, n - a, q⟩ := by
    have hsent : r.metadata = ⟨n - q, n - a, q % siamesePacketNumCount⟩ := h.combines.metadata
    rwa [hmod] at hsent
  have hend : base + r.elementEnd = n := by
    rw [h.elementEnd]
    omega
  obtain ⟨w₁, top, hprepare, hstarted, hcolumn, -, -, -, htop, -⟩ := prepareSums_spec hp hw hpending
    (by omega) (by omega) hs havailable (n - a) r.buffer.length
  have hreach : top ≤ n := by
    by_cases hrestart : w.Restarts q (n - q)
    · rw [if_pos hrestart] at htop
      omega
    · rw [if_neg hrestart] at htop
      unfold Restarts at hrestart
      omega
  rw [← hmetadata] at hprepare
  generalize hw₂ : ({ w₁ with sumColumnCount := r.metadata.sumCount } : SumWindow) = w₂
  have hwindow : w₂.toDecoderPacketWindow = w.toDecoderPacketWindow := by
    rw [← hw₂]
    exact hstarted.window
  have hshows := hw.of_window hwindow
  have hsums : w₂.SumsHold (present p got) base q ∧ w₂.UpTo base n ∧ w₂.sumColumnStart = q ∧
      w₂.sumColumnCount = n - q ∧ w₂.recoveredColumns = [] := by
    rw [← hw₂]
    exact ⟨hstarted.holds, hstarted.upTo.mono hreach, hcolumn, congrArg (·.sumCount) hmetadata,
      hstarted.recovered⟩
  obtain ⟨hholds, hup, hstart₂, hcount₂, hrecovered⟩ := hsums
  have hcount : n ≤ base + w₂.count := by
    rw [congrArg DecoderPacketWindow.count hwindow]
    exact hn
  have hdense := eliminateDense_spec hshows hholds hup hend hcount
  generalize hx : (List.range columnLaneCount).foldl (fun x laneIndex =>
    (List.range (2 * columnSumCount)).foldl (eliminateDenseBit r laneIndex) x)
    (w₂, r.buffer, List.replicate r.buffer.length 0) = x at hdense
  have hrolls := hdense.rolls
  obtain ⟨hlength, hlength', hvec⟩ := eliminateLight_spec (hrolls.shows hshows) h r.pairCount
    (PcgRandom.seed r.row r.metadata.ldpcCount) x.2.1 x.2.2 hdense.recovery_length
    hdense.product_length
  have hresult : w.eliminateRecovery r = some
      (muladdMem (x.1.eliminateLight r r.pairCount (PcgRandom.seed r.row r.metadata.ldpcCount)
          x.2.1 x.2.2).1 (getRowValue r.row)
        (x.1.eliminateLight r r.pairCount (PcgRandom.seed r.row r.metadata.ldpcCount)
          x.2.1 x.2.2).2, x.1) := by
    rw [eliminateRecovery, if_neg hr, hprepare]
    dsimp only
    rw [hw₂, hx]
  refine ⟨_, x.1, hresult, combinesLost_of_arrived h hacked ?_ ?_, hrolls.window.trans hwindow,
    hrolls.recovered.trans hrecovered, hrolls.holds hshows hholds, hrolls.upTo hend.le hup,
    hrolls.columnStart.trans hstart₂, hrolls.columnCount.trans hcount₂⟩
  · rw [length_muladdMem]
    exact hlength
  · -- the sums with their row value, and the light columns
    have hcoefficients : ∑ k ∈ Ico q n, r.coefficientOf n a k • vec (present p got k) =
        (∑ l ∈ range columnLaneCount, ∑ bit ∈ range (2 * columnSumCount),
          (if bit < columnSumCount then 1 else r.rowValue) •
            bitSum (present p got) r.row q n l bit) +
        (((r.sent.received n a).lightPairs r.pairCount (PcgRandom.seed r.row (n - a))).map
          fun x => x.2 • vec (present p got x.1)).sum := by
      rw [sum_bitSum]
      exact ByteEncoder.sum_coefficient_sums hr hle hlt h.combines.near h.combines.metadata rfl
    have hbits : (∑ l ∈ range columnLaneCount, ∑ bit ∈ range (2 * columnSumCount),
          (if bit < columnSumCount then 1 else r.rowValue) •
            bitSum (present p got) r.row q n l bit) =
        (∑ l ∈ range columnLaneCount, ∑ bit ∈ range (2 * columnSumCount),
          if bit < columnSumCount then bitSum (present p got) r.row q n l bit else 0) +
        r.rowValue • ∑ l ∈ range columnLaneCount, ∑ bit ∈ range (2 * columnSumCount),
          if bit < columnSumCount then 0 else bitSum (present p got) r.row q n l bit := by
      simp only [smul_sum, ← sum_add_distrib]
      refine sum_congr rfl fun l _ => sum_congr rfl fun bit _ => ?_
      split <;> simp
    have hldpc : r.metadata.ldpcCount = n - a := congrArg (·.ldpcCount) hmetadata
    rw [hldpc] at hvec hlength hlength' ⊢
    rw [vec_muladdMem (by omega), hcoefficients, hbits]
    show _ + r.rowValue • _ = _
    rw [hvec, hdense.recovery, hdense.product, map_add, map_add, map_smul]
    abel

/-! ## All rows -/

/-- A row whose packets are in the window, but for some that were received. -/
structure Stored (p : Nat → Bytes) (got : Finset Nat) (base : Nat) (w : SumWindow) (n a q : Nat)
    (r : RecoveryPacket) : Prop where
  arrived : Arrived p n a q base r
  inside : n ≤ base + w.count
  acked : ∀ k < a, k ∈ got

/-- A window that has what was received, with sums that are right. -/
structure Sound (p : Nat → Bytes) (got after : Finset Nat) (base : Nat) (w : SumWindow) :
    Prop where
  shows : w.Shows p got base
  pending : w.Pending got
  summing : w.Summing p got after base

/-- Every row that is used finds its sums: it starts with a packet of the window, or it goes on
with the sums that are there when it is its turn. -/
def Kept (base : Nat) (used : Nat → Bool) : Nat → Option (Nat × Nat) → List RecoveryPacket → Prop
  | _, _, [] => True
  | i, sums, r :: rows =>
      if used i = true ∧ ¬r.IsCauchy then
        (base ≤ r.metadata.columnStart ∨ ∃ count, sums = some (r.metadata.columnStart, count) ∧
          count ≤ r.metadata.sumCount) ∧
        Kept base used (i + 1) (some (r.metadata.columnStart, r.metadata.sumCount)) rows
      else Kept base used (i + 1) sums rows

theorem kept_of_cauchy {used : Nat → Bool} {rows : List RecoveryPacket}
    (h : ∀ r ∈ rows, r.IsCauchy) (i : Nat) (sums : Option (Nat × Nat)) :
    Kept base used i sums rows := by
  induction rows generalizing i with
  | nil => trivial
  | cons r rows ih =>
      have hr := h r List.mem_cons_self
      rw [Kept, if_neg fun hnot => hnot.2 hr]
      exact ih (fun r hr => h r (List.mem_cons_of_mem _ hr)) _

/-- The sums that a window goes on with, unless they were given up -/
def GoesOn (base : Nat) (w : SumWindow) (sums : Option (Nat × Nat)) : Prop :=
  ∀ x, sums = some x → ¬w.Stale base ∧ x = (w.sumColumnStart, w.sumColumnCount)

/-- The sums that a row may go on with even if it starts before the window, as `AddRecovery` has
it: there are none while the count is zero. -/
def runningSums (w : SumWindow) : Option (Nat × Nat) :=
  if w.sumColumnCount = 0 then none else some (w.sumColumnStart, w.sumColumnCount)

theorem goesOn_runningSums (w : SumWindow) : w.GoesOn base w.runningSums := by
  intro x hx
  unfold runningSums at hx
  split at hx
  · cases hx
  next hcount => exact ⟨fun hstale => hcount hstale.idle, (Option.some.inj hx).symm⟩

theorem Stored.columnStart (h : w.Stored p got base n a q r) (hw : w.Shows p got base) :
    r.metadata.columnStart = q ∧ r.metadata.sumCount = n - q := by
  have hnear := hw.near
  have hinside := h.inside
  have hle := h.arrived.combines.le
  have hlt := h.arrived.combines.lt
  have hmetadata : r.metadata = ⟨n - q, n - a, q % siamesePacketNumCount⟩ :=
    h.arrived.combines.metadata
  rw [hmetadata]
  exact ⟨Nat.mod_eq_of_lt (by unfold siamesePacketNumCount at *; omega), rfl⟩

/-- One row leaves the sums right for the next one. -/
theorem eliminateRecovery_spec {after : Finset Nat} (hp : ∀ k, p k ≠ [])
    (hw : w.Sound p got after base) (h : w.Stored p got base n a q r)
    (hafter : ∀ k, a ≤ k → k < n → k ∈ after) (hmore : got ⊆ after)
    {sums : Option (Nat × Nat)} (hsums : w.GoesOn base sums)
    (hkept : r.IsCauchy ∨ base ≤ r.metadata.columnStart ∨
      ∃ count, sums = some (r.metadata.columnStart, count) ∧ count ≤ r.metadata.sumCount) :
    ∃ buffer w', w.eliminateRecovery r = some (buffer, w') ∧ CombinesLost p got n a r buffer ∧
      w'.Sound p got after base ∧ w'.toDecoderPacketWindow = w.toDecoderPacketWindow ∧
      w'.GoesOn base (if r.IsCauchy then sums
        else some (r.metadata.columnStart, r.metadata.sumCount)) := by
  by_cases hr : r.IsCauchy
  · obtain ⟨buffer, hdone, hleft⟩ := eliminateRecovery_cauchy hw.shows h.arrived hr fun k _ => h.acked k
    rw [if_pos hr]
    exact ⟨buffer, w, hdone, hleft, hw, rfl, hsums⟩
  · obtain ⟨hcolumn, hcount⟩ := h.columnStart hw.shows
    have hle := h.arrived.combines.le
    have hlt := h.arrived.combines.lt
    have hbase := h.arrived.base_le
    rw [hcolumn, hcount] at hkept
    have havailable : w.Available base q (n - q) := by
      rcases hkept with hcauchy | hge | ⟨count, hsome, hmore⟩
      · exact absurd hcauchy hr
      · exact .inl hge
      · obtain ⟨hstale, heq⟩ := hsums _ hsome
        obtain ⟨hq, rfl⟩ := Prod.mk.inj heq
        exact .inr ⟨hstale, by unfold Restarts; omega⟩
    obtain ⟨buffer, w', hdone, hleft, hwindow, hrecovered, hholds, hup, hstart, hsum⟩ :=
      eliminateRecovery_sums hp hw.shows hw.pending hw.summing h.arrived hr h.inside
        (fun k _ => h.acked k)
        havailable
    rw [if_neg hr, hcolumn, hcount]
    have hreaches : w'.Reaches p got after base n := by
      refine ⟨⟨?_, hup, by simp [hrecovered]⟩, by omega, by omega, by omega, fun k hge hk => ?_⟩
      · rw [hrecovered, hstart]
        simpa using hholds
      · rcases Nat.lt_or_ge k a with hka | hka
        · exact hmore (h.acked k hka)
        · exact hafter k hka hk
    refine ⟨buffer, w', hdone, hleft, ⟨hw.shows.of_window hwindow, ?_, .inl ⟨n, hreaches⟩⟩, hwindow,
      fun x hx => ⟨fun hstale => ?_, ?_⟩⟩
    · exact ⟨by simp [hrecovered], by simp [hrecovered]⟩
    · have hidle := hstale.idle
      omega
    · rw [hstart, hsum]
      exact (Option.some.inj hx).symm

/-- **`EliminateOriginalData`** succeeds, and what is left of every row that is used are the
packets that are lost. -/
theorem eliminateOriginalData_spec {after : Finset Nat} (hp : ∀ k, p k ≠ []) (used : Nat → Bool)
    {rows : List RecoveryPacket} (i : Nat) (hw : w.Sound p got after base)
    (hrows : ∀ r ∈ rows, ∃ n a q, w.Stored p got base n a q r ∧ ∀ k, a ≤ k → k < n → k ∈ after)
    (hmore : got ⊆ after) {sums : Option (Nat × Nat)}
    (hsums : w.GoesOn base sums) (hkept : Kept base used i sums rows) :
    ∃ b w', w.eliminateOriginalData used i rows = some (b, w') ∧ w'.Sound p got after base ∧
      w'.toDecoderPacketWindow = w.toDecoderPacketWindow ∧
      ∀ j, ∀ (hj : j < rows.length), used (i + j) = true →
        ∃ n a q, w.Stored p got base n a q rows[j] ∧ CombinesLost p got n a rows[j] (b (i + j)) := by
  induction rows generalizing w i sums with
  | nil => exact ⟨_, w, rfl, hw, rfl, fun j hj => absurd hj (Nat.not_lt_zero j)⟩
  | cons r rows ih =>
      obtain ⟨n, a, q, hr, hafter⟩ := hrows r List.mem_cons_self
      have hrest : ∀ r ∈ rows, ∃ n a q, w.Stored p got base n a q r ∧
          ∀ k, a ≤ k → k < n → k ∈ after := fun r hr => hrows r (List.mem_cons_of_mem _ hr)
      rw [Kept] at hkept
      rw [eliminateOriginalData]
      by_cases hused : used i = true
      · obtain ⟨buffer, v, hdone, hleft, hv, hwindow, hgoes⟩ :=
          eliminateRecovery_spec hp hw hr hafter hmore hsums (by
            by_cases hcauchy : r.IsCauchy
            · exact .inl hcauchy
            · rw [if_pos ⟨hused, hcauchy⟩] at hkept
              exact .inr hkept.1)
        have hkept' : Kept base used (i + 1) (if r.IsCauchy then sums
            else some (r.metadata.columnStart, r.metadata.sumCount)) rows := by
          by_cases hcauchy : r.IsCauchy
          · rw [if_neg fun h => h.2 hcauchy] at hkept
            rwa [if_pos hcauchy]
          · rw [if_pos ⟨hused, hcauchy⟩] at hkept
            rw [if_neg hcauchy]
            exact hkept.2
        have hstored : ∀ n a q r, w.Stored p got base n a q r ↔ v.Stored p got base n a q r := by
          intro n a q r
          have hcount := congrArg DecoderPacketWindow.count hwindow
          constructor
          · exact fun h => ⟨h.arrived, by rw [hcount]; exact h.inside, h.acked⟩
          · exact fun h => ⟨h.arrived, by rw [← hcount]; exact h.inside, h.acked⟩
        obtain ⟨b, w', hall, hw', hwindow', hlefts⟩ := ih (i + 1) hv
          (fun r hr => by simpa only [hstored] using hrest r hr) hgoes hkept'
        rw [if_pos hused, hdone]
        dsimp only
        rw [hall]
        refine ⟨_, w', rfl, hw', hwindow'.trans hwindow, fun j hj hj' => ?_⟩
        cases j with
        | zero => exact ⟨n, a, q, hr, by simpa using hleft⟩
        | succ j =>
            obtain ⟨n', a', q', hr', hleft'⟩ := hlefts j (Nat.lt_of_succ_lt_succ hj)
              (by rwa [Nat.add_assoc, Nat.add_comm 1 j])
            refine ⟨n', a', q', (hstored ..).mpr hr', ?_⟩
            rw [Function.update_of_ne (by omega)]
            rwa [Nat.add_assoc, Nat.add_comm 1 j] at hleft'
      · rw [if_neg fun h => hused h.1] at hkept
        obtain ⟨b, w', hall, hw', hwindow', hlefts⟩ := ih (i + 1) hw hrest hsums hkept
        rw [if_neg hused, hall]
        refine ⟨_, w', rfl, hw', hwindow', fun j hj hj' => ?_⟩
        cases j with
        | zero => exact absurd hj' hused
        | succ j =>
            obtain ⟨n', a', q', hr', hleft'⟩ := hlefts j (Nat.lt_of_succ_lt_succ hj)
              (by rwa [Nat.add_assoc, Nat.add_comm 1 j])
            refine ⟨n', a', q', hr', ?_⟩
            rw [Function.update_of_ne (by omega)]
            rwa [Nat.add_assoc, Nat.add_comm 1 j] at hleft'

end SumWindow

end FecRelay
