import FecRelay.Codec.LaneSums

/-!
# What the encoder's window carries

`Carries` relates a window to all packets that were ever added: its elements are the packets
that it shows, its longest packet is at least as long as those that are not acknowledged, and
its running sums, if there are any, hold the packets from some number on. Every operation of
the window keeps that.
-/

namespace FecRelay

open FecRelay.Base Finset

namespace ByteWindow

/-- The running sums hold the packets from number `q` on. -/
structure Running (p : Nat → Bytes) (a base first q : Nat) (w : ByteWindow) : Prop where
  le : q ≤ a
  start_le : w.sumStartElement ≤ w.firstUnremovedElement
  column : w.sumColumnStart = q % siamesePacketNumCount
  erased : base + w.sumStartElement = q + w.sumErasedCount
  holds : w.SumsHold p base first q

/-- A window that is not empty. The first `n` of the packets `p` were added, the first `a`
acknowledged, and element 0 is number `base`. -/
structure Filled (p : Nat → Bytes) (n a base first : Nat) (w : ByteWindow) : Prop where
  counted : base + w.count = n
  column : w.columnStart = base % siamesePacketNumCount
  acked : base + w.firstUnremovedElement = a
  lt : w.firstUnremovedElement < w.count
  first_le : first ≤ w.firstUnremovedElement
  shows : w.Shows p base first
  longest : ∀ k, a ≤ k → k < n → (p k).length ≤ w.longestPacket
  sums : w.sumStartElement < w.sumEndElement → ∃ q, w.Running p a base first q

/-- The first `n` of the packets `p` were added, the first `a` of them acknowledged. -/
structure Carries (p : Nat → Bytes) (n a : Nat) (w : ByteWindow) : Prop where
  holds : w.toEncoderPacketWindow.Holds n a
  sizes : w.originals = w.packets.map fun x => x.buffer.length
  filled : w.count ≠ 0 → ∃ base first, w.Filled p n a base first

variable {p : Nat → Bytes} {n a base first q : Nat} {w : ByteWindow}

theorem Carries.count (h : w.Carries p n a) : w.count = w.packets.length := by
  rw [EncoderPacketWindow.count, h.sizes, List.length_map]

theorem carries_init : ({} : ByteWindow).Carries p 0 0 where
  holds := EncoderPacketWindow.holds_init
  sizes := rfl
  filled h := absurd rfl h

/-! ## Packets come and go -/

theorem framed_length {data : Bytes} :
    (framed data).length = SiameseEncoder.packetBytes data := by
  have hle : u32 data.length ≤ data.length := Nat.mod_le _ _
  simp [framed, DecoderPacketWindow.originalPacket, SiameseEncoder.packetBytes, hle]

theorem getWindowElement_append {xs : List SentPacket} {w' : ByteWindow} (original : SentPacket)
    (h : w'.packets = xs ++ [original]) (e : Nat) :
    w'.getWindowElement e = if e = xs.length then original else xs.getD e {} := by
  rw [getWindowElement, h]
  rcases Nat.lt_trichotomy e xs.length with hlt | heq | hgt
  · rw [List.getD_append _ _ _ _ hlt, if_neg (by omega)]
  · rw [if_pos heq, heq]
    simp [List.getD_eq_getElem?_getD]
  · rw [if_neg (by omega), List.getD_eq_default _ _ (by simp; omega),
      List.getD_eq_default _ _ (by omega)]

theorem Filled.add (h : w.Filled p n a base first) (hc : w.Carries p n a) {data : Bytes}
    (hdata : p n = framed data) : (w.add data).Filled p (n + 1) a base first := by
  have hne : w.toEncoderPacketWindow.count ≠ 0 := by
    have := h.lt
    show w.count ≠ 0
    omega
  have hcount : (w.add data).count = w.count + 1 :=
    (EncoderPacketWindow.count_add _ _).trans (if_neg hne)
  have hfields : (w.add data).columnStart = w.columnStart ∧
      (w.add data).firstUnremovedElement = w.firstUnremovedElement ∧
      (w.add data).sumStartElement = w.sumStartElement ∧
      (w.add data).sumEndElement = w.sumEndElement ∧
      (w.add data).sumColumnStart = w.sumColumnStart ∧
      (w.add data).sumErasedCount = w.sumErasedCount ∧
      (w.add data).longestPacket = max w.longestPacket (framed data).length := by
    simp [ByteWindow.add, EncoderPacketWindow.add, hne, framed_length]
  obtain ⟨hstart, hfirst, hsumstart, hsumend, hsumcolumn, herased, hlongest⟩ := hfields
  have hpackets : (w.add data).packets = w.packets ++ [⟨w.nextColumn, framed data⟩] := by
    simp [ByteWindow.add, hne]
  refine ⟨?_, hstart.trans h.column, ?_, ?_, ?_, ⟨h.shows.aligned, fun e hge hlt => ?_⟩,
    fun k hge hlt => ?_, fun hrunning => ?_⟩
  · have := h.counted
    omega
  · rw [hfirst]
    exact h.acked
  · have := h.lt
    omega
  · rw [hfirst]
    exact h.first_le
  · rw [getWindowElement_append _ hpackets]
    by_cases hlast : e = w.packets.length
    · have hn : base + e = n := by
        rw [hlast, ← hc.count]
        exact h.counted
      rw [if_pos hlast, hn, hdata, hc.holds.nextColumn]
    · rw [if_neg hlast]
      exact h.shows.element e hge (by have := hc.count; omega)
  · rw [hlongest]
    rcases Nat.lt_succ_iff_lt_or_eq.mp hlt with hlt | rfl
    · exact (h.longest k hge hlt).trans (le_max_left _ _)
    · rw [hdata]
      exact le_max_right _ _
  · rw [hsumstart, hsumend] at hrunning
    obtain ⟨q, hq⟩ := h.sums hrunning
    refine ⟨q, hq.le, ?_, hsumcolumn.trans hq.column, ?_, fun l hl j hj => ?_⟩
    · rw [hsumstart, hfirst]
      exact hq.start_le
    · rw [hsumstart, herased]
      exact hq.erased
    · have hlane := hq.holds l hl j hj
      have hsame : ((w.add data).lanes l).nextElement = (w.lanes l).nextElement ∧
          ((w.add data).lanes l).sum = (w.lanes l).sum := by
        unfold ByteWindow.add
        dsimp only
        rw [if_neg hne]
        by_cases hl : l = w.nextColumn % columnLaneCount
        · subst hl
          simp
        · simp [hl]
      refine ⟨?_, ?_, ?_, ?_, ?_⟩
      all_goals rw [hsame.1]
      · exact hlane.lane
      · exact hlane.first_le
      · rw [hcount]
        exact hlane.lt.trans (by omega)
      · exact hlane.start
      · rw [hsame.2]
        exact hlane.value

/-- A new window starts at the lane of its first packet. -/
theorem filled_start (hempty : w.count = 0) (hnext : w.nextColumn = n % siamesePacketNumCount)
    {data : Bytes} (hdata : p n = framed data) :
    (w.add data).Filled p (n + 1) n (n - n % columnLaneCount) (n % columnLaneCount) := by
  have hempty : w.toEncoderPacketWindow.count = 0 := hempty
  have hlane : w.nextColumn % columnLaneCount = n % columnLaneCount := by
    rw [hnext]
    unfold siamesePacketNumCount columnLaneCount
    omega
  have hcount : (w.add data).count = n % columnLaneCount + 1 := by
    rw [← hlane]
    exact (EncoderPacketWindow.count_add _ _).trans (if_pos hempty)
  have hfields : (w.add data).columnStart = w.nextColumn - w.nextColumn % columnLaneCount ∧
      (w.add data).firstUnremovedElement = w.nextColumn % columnLaneCount ∧
      (w.add data).sumStartElement = w.nextColumn % columnLaneCount ∧
      (w.add data).sumEndElement = w.nextColumn % columnLaneCount ∧
      (w.add data).longestPacket = (framed data).length := by
    simp [ByteWindow.add, EncoderPacketWindow.add, EncoderPacketWindow.startNewWindow, hempty,
      framed_length]
  obtain ⟨hstart, hfirst, hsumstart, hsumend, hlongest⟩ := hfields
  have hpackets : (w.add data).packets =
      List.replicate (n % columnLaneCount) ({} : SentPacket) ++
        [⟨w.nextColumn, framed data⟩] := by
    simp [ByteWindow.add, hempty, ByteWindow.startNewWindow, hlane]
  have hsplit : n - n % columnLaneCount + n % columnLaneCount = n :=
    Nat.sub_add_cancel (Nat.mod_le n columnLaneCount)
  refine ⟨by omega, ?_, by omega, by omega, by omega, ⟨?_, fun e hge hlt => ?_⟩,
    fun k hge hlt => ?_, fun hrunning => ?_⟩
  · rw [hstart, hnext]
    unfold siamesePacketNumCount columnLaneCount
    omega
  · unfold columnLaneCount
    omega
  · have he : e = n % columnLaneCount := by omega
    rw [getWindowElement_append _ hpackets, List.length_replicate, if_pos he, he, hsplit, hdata,
      hnext]
  · obtain rfl : k = n := by omega
    rw [hlongest, hdata]
  · omega

/-- **Adding** a packet. -/
theorem Carries.add (h : w.Carries p n a) (hroom : w.count < siameseMaxPackets) {data : Bytes}
    (hdata : p n = framed data) : (w.add data).Carries p (n + 1) a := by
  refine ⟨h.holds.add hroom _, ?_, fun _ => ?_⟩
  · by_cases hempty : w.toEncoderPacketWindow.count = 0
    · simp [ByteWindow.add, ByteWindow.startNewWindow, EncoderPacketWindow.add,
        EncoderPacketWindow.startNewWindow, hempty, framed_length]
    · simp [ByteWindow.add, EncoderPacketWindow.add, hempty, framed_length, h.sizes]
  · by_cases hempty : w.count = 0
    · obtain rfl := h.holds.empty hempty
      exact ⟨_, _, filled_start hempty h.holds.nextColumn hdata⟩
    · obtain ⟨base, first, hfilled⟩ := h.filled hempty
      exact ⟨base, first, hfilled.add h hdata⟩

/-- **Acknowledging** all packets before number `e`. -/
theorem Carries.removeBefore (h : w.Carries p n a) {e : Nat} (ha : a ≤ e) (he : e ≤ n) :
    (w.removeBefore (e % siamesePacketNumCount)).Carries p n e := by
  have hholds : (w.removeBefore (e % siamesePacketNumCount)).toEncoderPacketWindow.Holds n e :=
    h.holds.removeBefore ha he
  by_cases hempty : (w.removeBefore (e % siamesePacketNumCount)).toEncoderPacketWindow.count = 0
  · refine ⟨hholds, ?_, fun hne => absurd hempty hne⟩
    have hpackets : (w.removeBefore (e % siamesePacketNumCount)).packets = [] := if_pos hempty
    rw [hpackets]
    exact List.eq_nil_of_length_eq_zero hempty
  · have hpackets : (w.removeBefore (e % siamesePacketNumCount)).packets = w.packets :=
      if_neg hempty
    have hkept : ∀ column, (w.toEncoderPacketWindow.removeBefore column).count ≠ 0 →
        w.toEncoderPacketWindow.count ≠ 0 ∧ w.toEncoderPacketWindow.removeBefore column =
          { w.toEncoderPacketWindow with
            firstUnremovedElement :=
              (w.toEncoderPacketWindow.removeBefore column).firstUnremovedElement } := by
      intro column hne
      unfold EncoderPacketWindow.removeBefore at hne ⊢
      dsimp only at hne ⊢
      split at hne
      · split at hne
        next hout hbackwards =>
          rw [if_pos hout, if_pos hbackwards]
          exact ⟨hne, rfl⟩
        · exact absurd rfl hne
      next hin =>
        rw [if_neg hin]
        exact ⟨hne, rfl⟩
    obtain ⟨hne, hsame⟩ := hkept _ hempty
    obtain ⟨base, first, hf⟩ := h.filled hne
    have hcount : (w.removeBefore (e % siamesePacketNumCount)).count = w.count := by
      show (w.toEncoderPacketWindow.removeBefore _).count = _
      rw [hsame]
      rfl
    -- element 0 is still the same packet
    obtain ⟨base', hbase', -, hacked, hlt⟩ := hholds.elements hempty
    obtain rfl : base' = base := by
      have := hf.counted
      have hcount : (w.removeBefore (e % siamesePacketNumCount)).toEncoderPacketWindow.count =
        w.count := hcount
      omega
    have hsizes : (w.removeBefore (e % siamesePacketNumCount)).originals = w.originals := by
      show (w.toEncoderPacketWindow.removeBefore _).originals = _
      rw [hsame]
    refine ⟨hholds, by rw [hsizes, hpackets, h.sizes], fun _ => ⟨base', first, ?_⟩⟩
    refine ⟨hbase', ?_, hacked, hlt, ?_, ⟨hf.shows.aligned, fun i hge hi => ?_⟩,
      fun k hge hk => ?_, fun hrunning => ?_⟩
    · show (w.toEncoderPacketWindow.removeBefore _).columnStart = _
      rw [hsame]
      exact hf.column
    · have := hf.first_le
      have := hf.acked
      omega
    · rw [getWindowElement, hpackets]
      exact hf.shows.element i hge (hcount ▸ hi)
    · show _ ≤ (w.toEncoderPacketWindow.removeBefore _).longestPacket
      rw [hsame]
      exact hf.longest k (ha.trans hge) hk
    · have hrunning : (w.toEncoderPacketWindow.removeBefore
          (e % siamesePacketNumCount)).sumStartElement <
          (w.toEncoderPacketWindow.removeBefore (e % siamesePacketNumCount)).sumEndElement :=
        hrunning
      rw [hsame] at hrunning
      obtain ⟨q, hq⟩ := hf.sums hrunning
      refine ⟨q, hq.le.trans ha, ?_, ?_, ?_, fun l hl j hj => ?_⟩
      · have hstart : (w.removeBefore (e % siamesePacketNumCount)).sumStartElement =
            w.sumStartElement := by
          show (w.toEncoderPacketWindow.removeBefore _).sumStartElement = _
          rw [hsame]
        have hle := hq.start_le
        have hacked' := hf.acked
        rw [hstart]
        refine hle.trans (Nat.le_of_add_le_add_left (a := base') ?_)
        exact (hacked'.trans_le ha).trans hacked.ge
      · show (w.toEncoderPacketWindow.removeBefore _).sumColumnStart = _
        rw [hsame]
        exact hq.column
      · show base' + (w.toEncoderPacketWindow.removeBefore _).sumStartElement =
          q + (w.toEncoderPacketWindow.removeBefore _).sumErasedCount
        rw [hsame]
        exact hq.erased
      · have hlane := hq.holds l hl j hj
        exact ⟨hlane.lane, hlane.first_le, hcount ▸ hlane.lt, hlane.start, hlane.value⟩

/-! ## Sums start over, and elements are removed -/

theorem Filled.resetSums (h : w.Filled p n a base first) :
    (w.resetSums w.firstUnremovedElement).Filled p n a base first ∧
      (w.resetSums w.firstUnremovedElement).Running p a base first a := by
  refine ⟨⟨h.counted, h.column, h.acked, h.lt, h.first_le, ⟨h.shows.aligned, h.shows.element⟩,
    h.longest, fun hrunning => absurd hrunning (Nat.lt_irrefl _)⟩, le_rfl, le_rfl, ?_, h.acked,
    ?_⟩
  · show (w.firstUnremovedElement + w.columnStart) % siamesePacketNumCount = _
    rw [h.column, Nat.add_mod_mod, Nat.add_comm, h.acked]
  · have hholds := SumsHold.resetSums (p := p) h.shows.aligned h.first_le h.lt
    rwa [h.acked] at hholds

theorem le_longest {sizes : List Nat} {bytes : Nat} (h : bytes ∈ sizes) :
    bytes ≤ EncoderPacketWindow.longest sizes := by
  induction sizes with
  | nil => simp at h
  | cons x xs ih =>
      rcases List.mem_cons.mp h with rfl | h
      · exact le_max_left _ _
      · exact (ih h).trans (le_max_right _ _)

/-- The window without bytes is removed from as before. -/
theorem removeElements_window (w : ByteWindow) :
    w.removeElements.toEncoderPacketWindow = w.toEncoderPacketWindow.removeElements := by
  have hidempotent : ∀ w : EncoderPacketWindow,
      w.removeElements.sumEndElement ≤ w.removeElements.sumStartElement →
      w.removeElements.resetSums w.removeElements.firstUnremovedElement = w.removeElements := by
    intro w
    unfold EncoderPacketWindow.removeElements
    by_cases hrunning : w.sumStartElement < w.sumEndElement
    · simp only [hrunning, if_true]
      split
      · intro _
        rfl
      · intro hle
        contradiction
    · simp only [hrunning, if_false]
      rw [if_pos (not_lt.mp hrunning)]
      intro _
      rfl
  unfold ByteWindow.removeElements
  dsimp only
  split
  next hle => exact hidempotent _ hle
  · rfl

theorem removeElements_packets (w : ByteWindow) : w.removeElements.packets =
    w.packets.drop (w.firstUnremovedElement / subwindowSize * subwindowSize) := by
  unfold ByteWindow.removeElements
  dsimp only
  split <;> rfl

/-- Where there are sums afterwards, they were rolled past the elements that went. -/
theorem removeElements_lanes (w : ByteWindow)
    (h : w.removeElements.sumStartElement < w.removeElements.sumEndElement) (l j : Nat) :
    w.sumStartElement < w.sumEndElement ∧
    (w.removeElements.lanes l).nextElement j =
      ((w.rollSums (w.firstUnremovedElement / subwindowSize * subwindowSize)).lanes
        l).nextElement j - w.firstUnremovedElement / subwindowSize * subwindowSize ∧
    (w.removeElements.lanes l).sum j =
      ((w.rollSums (w.firstUnremovedElement / subwindowSize * subwindowSize)).lanes l).sum j := by
  have hkept : ¬w.toEncoderPacketWindow.removeElements.sumEndElement ≤
      w.toEncoderPacketWindow.removeElements.sumStartElement := by
    rw [← removeElements_window]
    exact not_le.mpr h
  have hrunning : w.sumStartElement < w.sumEndElement := by
    by_contra hnot
    refine hkept ?_
    unfold EncoderPacketWindow.removeElements
    simp only [hnot, if_false]
    rw [if_pos (not_lt.mp hnot)]
    exact le_rfl
  refine ⟨hrunning, ?_⟩
  unfold ByteWindow.removeElements
  dsimp only
  rw [if_neg hkept]
  simp [hrunning]

/-- What the removal does to the range of the sums. -/
theorem removeElements_sums (w : EncoderPacketWindow)
    (h : w.removeElements.sumStartElement < w.removeElements.sumEndElement) :
    let removed := w.firstUnremovedElement / subwindowSize * subwindowSize
    w.removeElements.sumColumnStart = w.sumColumnStart ∧
      w.removeElements.sumStartElement = w.sumStartElement - removed ∧
      w.removeElements.sumErasedCount = w.sumErasedCount + (removed - w.sumStartElement) := by
  unfold EncoderPacketWindow.removeElements at h ⊢
  by_cases hrunning : w.sumStartElement < w.sumEndElement
  · simp only [hrunning, if_true] at h ⊢
    split at h
    · exact absurd h (lt_irrefl _)
    next hnot =>
      rw [if_neg hnot]
      exact ⟨rfl, rfl, rfl⟩
  · simp only [hrunning, if_false] at h ⊢
    rw [if_pos (not_lt.mp hrunning)] at h
    exact absurd h (lt_irrefl _)

theorem removeElements_longest (w : EncoderPacketWindow) : w.removeElements.longestPacket =
    EncoderPacketWindow.longest (w.originals.drop w.firstUnremovedElement) := by
  unfold EncoderPacketWindow.removeElements
  by_cases hrunning : w.sumStartElement < w.sumEndElement
  · simp only [hrunning, if_true]
    split <;> rfl
  · simp only [hrunning, if_false]
    split <;> rfl

/-- **Removing** elements moves element 0 forward. -/
theorem Filled.removeElements (h : w.Filled p n a base first) (hc : w.Carries p n a) :
    let removed := w.firstUnremovedElement / subwindowSize * subwindowSize
    w.removeElements.Filled p n a (base + removed) (first - removed) := by
  intro removed
  have hremoved : removed ≤ w.firstUnremovedElement := Nat.div_mul_le_self _ _
  have hlanes : removed % columnLaneCount = 0 := by
    have hsub : subwindowSize = columnLaneCount * 8 := rfl
    show w.firstUnremovedElement / subwindowSize * subwindowSize % columnLaneCount = 0
    rw [hsub, Nat.mul_left_comm, Nat.mul_mod_right]
  obtain ⟨-, hstart, horiginals, hfirst⟩ := w.toEncoderPacketWindow.removeElements_fields
  rw [← removeElements_window] at hstart horiginals hfirst
  have hlt := h.lt
  have hcounted := h.counted
  have hacked := h.acked
  have hcount : w.removeElements.count = w.count - removed := by
    show w.removeElements.originals.length = w.originals.length - removed
    rw [horiginals, List.length_drop]
  have haligned : (base + removed) % columnLaneCount = 0 := by
    have := h.shows.aligned
    unfold columnLaneCount at this hlanes ⊢
    omega
  refine ⟨by omega, ?_, ?_, by omega, ?_, ⟨haligned, fun e hge he => ?_⟩, fun k hge hk => ?_,
    fun hrunning => ?_⟩
  · rw [hstart, EncoderPacketWindow.elementToColumn, h.column, Nat.add_mod_mod, Nat.add_comm]
  · rw [hfirst]
    omega
  · rw [hfirst]
    exact Nat.sub_le_sub_right h.first_le _
  · rw [getWindowElement, removeElements_packets]
    have helement := h.shows.element (removed + e) (by omega) (by omega)
    rw [getWindowElement] at helement
    rw [List.getD_eq_getElem?_getD, List.getElem?_drop, ← List.getD_eq_getElem?_getD, helement,
      Nat.add_assoc]
  · have hlongest := removeElements_longest w.toEncoderPacketWindow
    rw [← removeElements_window] at hlongest
    rw [hlongest]
    refine le_longest ?_
    rw [hc.sizes]
    have helement := h.shows.element (k - base) (by have := h.first_le; omega) (by omega)
    rw [show base + (k - base) = k by omega] at helement
    refine List.mem_iff_getElem?.mpr ⟨k - base - w.firstUnremovedElement, ?_⟩
    rw [List.getElem?_drop, show w.firstUnremovedElement + (k - base - w.firstUnremovedElement) =
      k - base by omega, List.getElem?_map]
    have hlt : k - base < w.packets.length := by
      rw [← hc.count]
      omega
    rw [getWindowElement, List.getD_eq_getElem _ _ hlt] at helement
    rw [List.getElem?_eq_getElem hlt, helement]
    rfl
  · obtain ⟨hold, -⟩ := w.removeElements_lanes hrunning 0 0
    obtain ⟨q, hq⟩ := h.sums hold
    obtain ⟨hrolls, hpast⟩ := w.rollSums_spec (by omega : removed ≤ w.count)
    have hsums := removeElements_sums w.toEncoderPacketWindow
      (by rw [← removeElements_window]; exact hrunning)
    rw [← removeElements_window] at hsums
    obtain ⟨hcolumn, hsumstart, herased⟩ := hsums
    refine ⟨q, hq.le, ?_, hcolumn.trans hq.column, ?_, fun l hl j hj => ?_⟩
    · rw [hsumstart, hfirst]
      exact Nat.sub_le_sub_right hq.start_le _
    · have := hq.erased
      rw [hsumstart, herased]
      omega
    · have hnext : (w.removeElements.lanes l).nextElement j =
          ((w.rollSums removed).lanes l).nextElement j - removed :=
        (w.removeElements_lanes hrunning l j).2.1
      have hsum : (w.removeElements.lanes l).sum j = ((w.rollSums removed).lanes l).sum j :=
        (w.removeElements_lanes hrunning l j).2.2
      have hlane := hrolls.holds h.shows hq.holds l hl j hj
      have hge := hpast l hl j hj
      have hmod := hlane.lane
      have hfirstle := hlane.first_le
      have hstartle := hlane.start
      have hnextlt := hlane.lt
      rw [hrolls.count] at hnextlt
      refine ⟨?_, ?_, ?_, ?_, ?_⟩
      all_goals rw [hnext]
      · unfold columnLaneCount at hmod hlanes ⊢
        omega
      · exact Nat.sub_le_sub_right hfirstle _
      · omega
      · omega
      · rw [hsum, hlane.value]
        congr 1
        omega

theorem Carries.trim (h : w.Carries p n a) : w.trim.Carries p n a := by
  have hholds := h.holds.trim
  unfold EncoderPacketWindow.trim at hholds
  unfold ByteWindow.trim
  split
  next hmany =>
    rw [if_pos hmany] at hholds
    refine ⟨removeElements_window w ▸ hholds, ?_, fun hne => ?_⟩
    · rw [removeElements_packets, removeElements_window,
        (w.toEncoderPacketWindow.removeElements_fields).2.2.1, h.sizes, List.map_drop]
    · have hold : w.count ≠ 0 := by
        intro hzero
        refine hne ?_
        show w.removeElements.originals.length = 0
        rw [removeElements_window, (w.toEncoderPacketWindow.removeElements_fields).2.2.1,
          List.eq_nil_of_length_eq_zero hzero, List.drop_nil]
        rfl
      obtain ⟨base, first, hf⟩ := h.filled hold
      exact ⟨_, _, hf.removeElements h⟩
  · exact h

theorem trim_window (w : ByteWindow) :
    w.trim.toEncoderPacketWindow = w.toEncoderPacketWindow.trim := by
  unfold ByteWindow.trim EncoderPacketWindow.trim
  split
  · exact removeElements_window w
  · rfl

end ByteWindow

end FecRelay
