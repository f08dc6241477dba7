import FecRelay.Codec.Carries

/-!
# What a recovery packet says

Whichever way a recovery packet is made, its bytes are a combination of the packets that its
footer says it covers, with the coefficients that a decoder reads from the footer. A packet
made from running sums is cut to the longest packet that is not acknowledged, so that it says
nothing of what is longer.
-/

namespace FecRelay

open FecRelay.Base Finset

/-- A packet as a column of a decoder that counts packets as the encoder does. -/
def numbered (k : Nat) : ColumnInfo := ⟨k, k % siamesePacketNumCount⟩

/-- The recovery packet as such a decoder keeps it. -/
def EncodedPacket.received (x : EncodedPacket) (n a : Nat) : RecoveryPacket where
  metadata := x.metadata
  row := x.row
  elementStart := a
  elementEnd := n
  buffer := x.body

/-- The recovery packet combines the packets from number `q` on, of which `n` were added and
`a` acknowledged. -/
structure Combines (p : Nat → Bytes) (n a q : Nat) (x : EncodedPacket) : Prop where
  le : q ≤ a
  lt : a < n
  near : n - q ≤ siameseMaxPackets
  metadata : x.metadata = ⟨n - q, n - a, q % siamesePacketNumCount⟩
  row : x.row < rowValuePeriod
  /-- A packet that is alone is sent as it is. -/
  alone : n - q = 1 → x.row = 0 ∧ x.body = p a
  /-- A parity or Cauchy row has nothing that is acknowledged. -/
  whole : n - q ≤ siameseCauchyThreshold → q = a ∧ x.row ≤ cauchyMaxRows
  room : ∀ k, a ≤ k → k < n → (p k).length ≤ x.body.length
  combination : vec x.body = upTo x.body.length
    (∑ k ∈ Ico q n, (x.received n a).coefficient (numbered k) • vec (p k))

variable {p : Nat → Bytes} {n a q : Nat}

theorem sum_Ico_eq_sum_map {M : Type} [AddCommMonoid M] (f : Nat → M) (a n : Nat) :
    ∑ k ∈ Ico a n, f k = ((List.range' a (n - a)).map f).sum := rfl

/-! ## Parity and Cauchy rows -/

theorem covers_numbered {r : RecoveryPacket} {k : Nat} (hq : q ≤ k) (hk : k < n)
    (hnear : n - q ≤ siameseMaxPackets) (hcount : r.metadata.sumCount = n - q)
    (hstart : r.metadata.columnStart = q % siamesePacketNumCount) :
    r.Covers (k % siamesePacketNumCount) := by
  unfold siameseMaxPackets at hnear
  rw [RecoveryPacket.Covers, hcount, hstart, subtractColumns,
    Cyclic.distance_of_near hq (by unfold siamesePacketNumCount; omega)]
  omega

/-- The coefficients of a row that is not made from sums. -/
theorem coefficient_cauchy {r : RecoveryPacket} {c : ColumnInfo} (hr : r.IsCauchy)
    (hc : r.Covers c.column) : r.coefficient c =
      if r.row = 0 then 1 else cauchyElement (r.row - 1) (c.column % cauchyMaxColumns) := by
  rw [RecoveryPacket.coefficient, if_pos hc, RecoveryPacket.light, if_pos hr,
    RecoveryPacket.denseValue, if_pos hr]
  simp [RecoveryPacket.lightAt]

namespace ByteWindow

/-- The loop of a parity row adds the packets, and knows the longest. -/
theorem addParity_spec (xs : List SentPacket) (data : Bytes) (usedBytes : Nat)
    (hroom : ∀ x ∈ xs, x.buffer.length ≤ data.length) (hused : usedBytes ≤ data.length) :
    vec (addParity xs data usedBytes).1 = vec data + (xs.map fun x => vec x.buffer).sum ∧
    (addParity xs data usedBytes).2 ≤ (addParity xs data usedBytes).1.length ∧
    usedBytes ≤ (addParity xs data usedBytes).2 ∧
    ∀ x ∈ xs, x.buffer.length ≤ (addParity xs data usedBytes).2 := by
  induction xs generalizing data usedBytes with
  | nil => simp [addParity, hused]
  | cons x xs ih =>
      have hx := hroom x List.mem_cons_self
      obtain ⟨hvec, hlength, hge, hall⟩ := ih (addMem data x.buffer) (max usedBytes x.buffer.length)
        (fun y hy => by simpa using hroom y (List.mem_cons_of_mem _ hy))
        (by simpa using ⟨hused, hx⟩)
      refine ⟨?_, hlength, (le_max_left _ _).trans hge, fun y hy => ?_⟩
      · rw [addParity, hvec, vec_addMem hx, List.map_cons, List.sum_cons, add_assoc]
      · rcases List.mem_cons.mp hy with rfl | hy
        · exact (le_max_right _ _).trans hge
        · exact hall y hy

/-- The loop of a Cauchy row adds the packets with their elements of the Cauchy matrix. -/
theorem addCauchy_spec (cauchyRow : Nat) (xs : List SentPacket) (cauchyColumn : Nat)
    (data : Bytes) (usedBytes : Nat)
    (hcolumns : ∀ i, ∀ (hi : i < xs.length),
      (xs[i]).column % cauchyMaxColumns = (cauchyColumn + 1 + i) % cauchyMaxColumns)
    (hroom : ∀ x ∈ xs, x.buffer.length ≤ data.length) (hused : usedBytes ≤ data.length) :
    vec (addCauchy cauchyRow xs cauchyColumn data usedBytes).1 = vec data +
      (xs.map fun x => cauchyElement cauchyRow (x.column % cauchyMaxColumns) • vec x.buffer).sum ∧
    (addCauchy cauchyRow xs cauchyColumn data usedBytes).2 ≤
      (addCauchy cauchyRow xs cauchyColumn data usedBytes).1.length ∧
    usedBytes ≤ (addCauchy cauchyRow xs cauchyColumn data usedBytes).2 ∧
    ∀ x ∈ xs, x.buffer.length ≤ (addCauchy cauchyRow xs cauchyColumn data usedBytes).2 := by
  induction xs generalizing data cauchyColumn usedBytes with
  | nil => simp [addCauchy, hused]
  | cons x xs ih =>
      have hx := hroom x List.mem_cons_self
      have hcolumn : x.column % cauchyMaxColumns = (cauchyColumn + 1) % cauchyMaxColumns :=
        hcolumns 0 (Nat.succ_pos _)
      rw [addCauchy, ← hcolumn]
      obtain ⟨hvec, hlength, hge, hall⟩ := ih (x.column % cauchyMaxColumns)
        (muladdMem data (cauchyElement cauchyRow (x.column % cauchyMaxColumns)).byte x.buffer)
        (max usedBytes x.buffer.length)
        (fun i hi => by
          have hnext := hcolumns (i + 1) (Nat.succ_lt_succ hi)
          rw [List.getElem_cons_succ] at hnext
          rw [hnext, hcolumn]
          unfold cauchyMaxColumns siameseCauchyThreshold
          omega)
        (fun y hy => by simpa using hroom y (List.mem_cons_of_mem _ hy))
        (by simpa using ⟨hused, hx⟩)
      refine ⟨?_, hlength, (le_max_left _ _).trans hge, fun y hy => ?_⟩
      · rw [hvec, vec_muladdMem hx, List.map_cons, List.sum_cons, add_assoc]
      · rcases List.mem_cons.mp hy with rfl | hy
        · exact (le_max_right _ _).trans hge
        · exact hall y hy

variable {base first : Nat} {w : ByteWindow}

/-- The elements from one that the window shows are the packets from its number on. -/
theorem Filled.drop (h : w.Filled p n a base first) (hc : w.Carries p n a) {e : Nat}
    (hfirst : first ≤ e) : w.packets.drop e =
      (List.range' (base + e) (n - (base + e))).map fun k =>
        ⟨k % siamesePacketNumCount, p k⟩ := by
  have hcount := hc.count
  have hcounted := h.counted
  refine List.ext_getElem (by simp; omega) fun i hi hi' => ?_
  have hi : e + i < w.packets.length := by simp at hi; omega
  have helement := h.shows.element (e + i) (by omega) (by omega)
  rw [getWindowElement, List.getD_eq_getElem _ _ hi] at helement
  simp [helement, Nat.add_assoc]

end ByteWindow

namespace ByteEncoder

variable {base first : Nat} {s : ByteEncoder}

/-- The first column is spelled as the column of the first packet that is not acknowledged. -/
theorem elementToColumn_first (h : s.window.Filled p n a base first) :
    s.window.elementToColumn s.window.firstUnremovedElement = a % siamesePacketNumCount := by
  rw [EncoderPacketWindow.elementToColumn, h.column, Nat.add_mod_mod, Nat.add_comm, h.acked]

/-- The first packet and the others. -/
theorem firstPacket (h : s.window.Filled p n a base first) (hc : s.window.Carries p n a) :
    s.window.getWindowElement s.window.firstUnremovedElement =
      ⟨a % siamesePacketNumCount, p a⟩ ∧
    s.window.packets.drop (s.window.firstUnremovedElement + 1) =
      (List.range' (a + 1) (n - (a + 1))).map fun k => ⟨k % siamesePacketNumCount, p k⟩ := by
  have hacked := h.acked
  constructor
  · rw [h.shows.element _ h.first_le h.lt, hacked]
  · have hfirst := h.first_le
    have hdrop := h.drop hc (e := s.window.firstUnremovedElement + 1) (by omega)
    rwa [← Nat.add_assoc, hacked] at hdrop

theorem lt_of_filled (h : s.window.Filled p n a base first) : a < n := by
  have := h.acked
  have := h.counted
  have := h.lt
  omega

theorem unacknowledged_le (hc : s.window.Carries p n a) :
    s.window.getUnacknowledgedCount = n - a ∧ n - a ≤ siameseMaxPackets := by
  have hcount := hc.holds.unacknowledged
  have hle := hc.holds.count_le
  refine ⟨hcount, ?_⟩
  rw [← hcount]
  exact (Nat.sub_le _ _).trans hle

/-- A combination of the packets from the first on that is not acknowledged, cut after the
longest of them. -/
theorem combines_of_loop {x : EncodedPacket} (data : Bytes) (usedBytes : Nat)
    (hlt : a < n) (hnear : n - a ≤ siameseCauchyThreshold)
    (hmetadata : x.metadata = ⟨n - a, n - a, a % siamesePacketNumCount⟩)
    (hrow : x.row ≤ cauchyMaxRows) (halone : n - a = 1 → x.row = 0 ∧ x.body = p a)
    (hbody : x.body = data.take usedBytes)
    (hlength : usedBytes ≤ data.length) (hroom : ∀ k, a ≤ k → k < n → (p k).length ≤ usedBytes)
    (hdata : vec data = ∑ k ∈ Ico a n, (if x.row = 0 then 1 else
      cauchyElement (x.row - 1) (k % siamesePacketNumCount % cauchyMaxColumns)) • vec (p k)) :
    Combines p n a a x := by
  have hused : x.body.length = usedBytes := by
    rw [hbody, List.length_take, Nat.min_eq_left hlength]
  have hmax : n - a ≤ siameseMaxPackets := hnear.trans (by decide)
  refine ⟨le_rfl, hlt, hmax, hmetadata, hrow.trans_lt (by decide), halone, fun _ => ⟨rfl, hrow⟩,
    by rwa [hused], ?_⟩
  rw [hused, hbody, vec_take, hdata]
  refine congrArg _ (sum_congr rfl fun k hk => ?_)
  have hk := mem_Ico.mp hk
  have hcauchy : (x.received n a).IsCauchy := by
    show x.metadata.sumCount ≤ siameseCauchyThreshold
    rw [hmetadata]
    exact hnear
  have hcovers : (x.received n a).Covers (numbered k).column :=
    covers_numbered hk.1 hk.2 hmax (by show x.metadata.sumCount = _; rw [hmetadata])
      (by show x.metadata.columnStart = _; rw [hmetadata])
  rw [coefficient_cauchy hcauchy hcovers]
  rfl

/-- A single packet -/
theorem combines_single (h : s.window.Filled p n a base first) (hc : s.window.Carries p n a)
    (hone : s.window.getUnacknowledgedCount = 1) :
    Combines p n a a s.generateSinglePacket.1 := by
  obtain ⟨hpacket, -⟩ := firstPacket h hc
  have hcount := (unacknowledged_le hc).1
  obtain rfl : n = a + 1 := by
    have := lt_of_filled h
    omega
  refine combines_of_loop (p a) (p a).length (Nat.lt_succ_self a)
    (by simp [siameseCauchyThreshold]) ?_ (Nat.zero_le _) (fun _ => ⟨rfl, ?_⟩) ?_ le_rfl
    (fun k hge hk => ?_) ?_
  · simp [generateSinglePacket, hpacket]
  · simp [generateSinglePacket, hpacket]
  · simp [generateSinglePacket, hpacket]
  · obtain rfl : k = a := by omega
    exact le_rfl
  · simp [generateSinglePacket]

/-- A parity row, or the next Cauchy row -/
theorem combines_cauchy (h : s.window.Filled p n a base first) (hc : s.window.Carries p n a)
    (hrow : s.nextCauchyRow < cauchyMaxRows) (hmany : s.window.getUnacknowledgedCount ≠ 1)
    (hfew : s.window.getUnacknowledgedCount ≤ siameseCauchyThreshold) :
    Combines p n a a s.generateCauchyPacket.1 := by
  obtain ⟨hpacket, hrest⟩ := firstPacket h hc
  have hcount := (unacknowledged_le hc).1
  have hlt := lt_of_filled h
  have hcolumn := elementToColumn_first h
  have hlongest := h.longest
  have hroom : ∀ x ∈ s.window.packets.drop (s.window.firstUnremovedElement + 1),
      x.buffer.length ≤ max (p a).length s.window.longestPacket := by
    intro x hx
    rw [hrest] at hx
    obtain ⟨k, hk, rfl⟩ := List.mem_map.mp hx
    have hk := List.mem_range'_1.mp hk
    exact (hlongest k (by omega) (by omega)).trans (le_max_right _ _)
  have hlonger : ∀ (usedBytes k : Nat), a ≤ k → k < n → (p a).length ≤ usedBytes →
      (∀ x ∈ s.window.packets.drop (s.window.firstUnremovedElement + 1),
        x.buffer.length ≤ usedBytes) → (p k).length ≤ usedBytes := by
    intro usedBytes k hge hk hfirst hall
    rcases Nat.lt_or_ge a k with hgt | hle
    · refine hall ⟨k % siamesePacketNumCount, p k⟩ ?_
      rw [hrest]
      exact List.mem_map.mpr ⟨k, List.mem_range'_1.mpr (by omega), rfl⟩
    · obtain rfl : k = a := by omega
      exact hfirst
  unfold generateCauchyPacket
  dsimp only
  rw [hpacket, hcount, hcolumn]
  split
  · obtain ⟨hvec, hlength, hge, hall⟩ := ByteWindow.addParity_spec _
      (growZeroPadded (p a) s.window.longestPacket) (p a).length (by simpa using hroom) (by simp)
    refine combines_of_loop _ _ hlt (hcount ▸ hfew) rfl (Nat.zero_le _)
      (fun hone => absurd hone (hcount ▸ hmany)) rfl hlength
      (fun k hge' hk => hlonger _ k hge' hk hge hall) ?_
    rw [hvec, vec_growZeroPadded, hrest, List.map_map, sum_eq_sum_Ico_succ_bot hlt,
      sum_Ico_eq_sum_map]
    simp [Function.comp_def]
  · have hcolumns : ∀ i, ∀ (hi : i < (s.window.packets.drop
        (s.window.firstUnremovedElement + 1)).length),
        ((s.window.packets.drop (s.window.firstUnremovedElement + 1))[i]).column %
          cauchyMaxColumns =
        (a % siamesePacketNumCount % cauchyMaxColumns + 1 + i) % cauchyMaxColumns := by
      rw [hrest]
      intro i hi
      rw [List.getElem_map, List.getElem_range']
      dsimp only
      unfold siamesePacketNumCount cauchyMaxColumns siameseCauchyThreshold
      omega
    obtain ⟨hvec, hlength, hge, hall⟩ := ByteWindow.addCauchy_spec s.nextCauchyRow _
      (a % siamesePacketNumCount % cauchyMaxColumns) (growZeroPadded (mulMem (p a)
        (cauchyElement s.nextCauchyRow (a % siamesePacketNumCount % cauchyMaxColumns)).byte)
        s.window.longestPacket) (p a).length hcolumns (by simpa using hroom) (by simp)
    refine combines_of_loop _ _ hlt (hcount ▸ hfew) rfl ?_
      (fun hone => absurd hone (hcount ▸ hmany)) rfl hlength
      (fun k hge' hk => hlonger _ k hge' hk hge hall) ?_
    · exact hrow
    · rw [hvec, vec_growZeroPadded, vec_mulMem, hrest, List.map_map,
        sum_eq_sum_Ico_succ_bot hlt, sum_Ico_eq_sum_map]
      simp [Function.comp_def]

end ByteEncoder

end FecRelay
