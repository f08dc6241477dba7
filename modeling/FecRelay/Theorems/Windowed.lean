import FecRelay.Codec.SumRows

/-!
# The encoder is windowed

What is shown elsewhere of any codec whose encoder does as its window does holds of the
encoder with its packets and running sums: each of its calls, in any state and with any
argument, does to the window what the window without bytes does, and its recovery packets
have the length and the footer that the window gives them. An encoder that is `Sound` stays so.
-/

namespace FecRelay

open FecRelay.Base

namespace ByteWindow

/-- The window knows the sizes and columns of its packets. -/
structure Sound (w : ByteWindow) : Prop where
  sizes : w.originals = w.packets.map fun x => x.buffer.length
  next_lt : w.nextColumn < siamesePacketNumCount
  first_lt : w.count ≠ 0 → w.firstUnremovedElement < w.count
  next : w.count ≠ 0 → w.nextColumn = w.elementToColumn w.count
  column : ∀ e, w.firstUnremovedElement ≤ e → e < w.count →
    (w.getWindowElement e).column = w.elementToColumn e
  longest : ∀ e, w.firstUnremovedElement ≤ e → e < w.count →
    (w.getWindowElement e).buffer.length ≤ w.longestPacket

variable {w : ByteWindow}

theorem Sound.count (h : w.Sound) : w.count = w.packets.length := by
  rw [EncoderPacketWindow.count, h.sizes, List.length_map]

theorem Sound.size (h : w.Sound) (e : Nat) :
    w.originals.getD e 0 = (w.getWindowElement e).buffer.length := by
  rw [h.sizes, getWindowElement, List.getD_eq_getElem?_getD, List.getD_eq_getElem?_getD,
    List.getElem?_map]
  cases w.packets[e]? <;> rfl

theorem sound_init : ({} : ByteWindow).Sound where
  sizes := rfl
  next_lt := by decide
  first_lt h := absurd rfl h
  next h := absurd rfl h
  column e _ h := absurd h (Nat.not_lt_zero e)
  longest e _ h := absurd h (Nat.not_lt_zero e)

theorem Sound.add (h : w.Sound) (data : Bytes) : (w.add data).Sound := by
  have hlt : siamesePacketNumInc w.nextColumn < siamesePacketNumCount :=
    Nat.mod_lt _ (by decide)
  by_cases hempty : w.toEncoderPacketWindow.count = 0
  · have hpackets : (w.add data).packets =
        List.replicate (w.nextColumn % columnLaneCount) ({} : SentPacket) ++
          [⟨w.nextColumn, framed data⟩] := by
      simp [ByteWindow.add, ByteWindow.startNewWindow, hempty]
    have hcount : (w.add data).count = w.nextColumn % columnLaneCount + 1 :=
      (EncoderPacketWindow.count_add _ _).trans (if_pos hempty)
    have hfields : (w.add data).columnStart = w.nextColumn - w.nextColumn % columnLaneCount ∧
        (w.add data).firstUnremovedElement = w.nextColumn % columnLaneCount ∧
        (w.add data).longestPacket = (framed data).length ∧
        (w.add data).nextColumn = siamesePacketNumInc w.nextColumn ∧
        (w.add data).originals = List.replicate (w.nextColumn % columnLaneCount) 0 ++
          [(framed data).length] := by
      simp [ByteWindow.add, EncoderPacketWindow.add, EncoderPacketWindow.startNewWindow, hempty,
        framed_length]
    obtain ⟨hstart, hfirst, hlongest, hnext, horiginals⟩ := hfields
    have hsplit := Nat.mod_le w.nextColumn columnLaneCount
    refine ⟨by simp [horiginals, hpackets], hnext ▸ hlt, fun _ => by omega, fun _ => ?_,
      fun e hge he => ?_, fun e hge he => ?_⟩
    · rw [hnext, EncoderPacketWindow.elementToColumn, hcount, hstart, siamesePacketNumInc]
      congr 1
      omega
    · have he : e = w.nextColumn % columnLaneCount := by omega
      rw [getWindowElement_append _ hpackets, List.length_replicate, if_pos he, he,
        EncoderPacketWindow.elementToColumn, hstart, Nat.add_sub_cancel' hsplit,
        Nat.mod_eq_of_lt h.next_lt]
    · have he : e = w.nextColumn % columnLaneCount := by omega
      rw [getWindowElement_append _ hpackets, List.length_replicate, if_pos he, hlongest]
  · have hpackets : (w.add data).packets = w.packets ++ [⟨w.nextColumn, framed data⟩] := by
      simp [ByteWindow.add, hempty]
    have hcount : (w.add data).count = w.count + 1 :=
      (EncoderPacketWindow.count_add _ _).trans (if_neg hempty)
    have hfields : (w.add data).columnStart = w.columnStart ∧
        (w.add data).firstUnremovedElement = w.firstUnremovedElement ∧
        (w.add data).longestPacket = max w.longestPacket (framed data).length ∧
        (w.add data).nextColumn = siamesePacketNumInc w.nextColumn ∧
        (w.add data).originals = w.originals ++ [(framed data).length] := by
      simp [ByteWindow.add, EncoderPacketWindow.add, hempty, framed_length]
    obtain ⟨hstart, hfirst, hlongest, hnext, horiginals⟩ := hfields
    have hcolumns : ∀ e, (w.add data).elementToColumn e = w.elementToColumn e := by
      intro e
      rw [EncoderPacketWindow.elementToColumn, EncoderPacketWindow.elementToColumn, hstart]
    have hfirstlt : w.firstUnremovedElement < w.count := h.first_lt hempty
    refine ⟨by simp [horiginals, hpackets, h.sizes], hnext ▸ hlt, fun _ => by omega,
      fun _ => ?_, fun e hge he => ?_, fun e hge he => ?_⟩
    · rw [hnext, h.next hempty, hcolumns, hcount, siamesePacketNumInc,
        EncoderPacketWindow.elementToColumn, EncoderPacketWindow.elementToColumn,
        Nat.mod_add_mod]
      congr 1
      omega
    · rw [getWindowElement_append _ hpackets, hcolumns]
      by_cases hlast : e = w.packets.length
      · rw [if_pos hlast, hlast, ← h.count]
        exact h.next hempty
      · rw [if_neg hlast]
        exact h.column e (hfirst ▸ hge) (by have := h.count; omega)
    · rw [getWindowElement_append _ hpackets, hlongest]
      by_cases hlast : e = w.packets.length
      · rw [if_pos hlast]
        exact le_max_right _ _
      · rw [if_neg hlast]
        exact (h.longest e (hfirst ▸ hge) (by have := h.count; omega)).trans (le_max_left _ _)

theorem Sound.removeBefore (h : w.Sound) (column : Nat) : (w.removeBefore column).Sound := by
  by_cases hempty : (w.toEncoderPacketWindow.removeBefore column).count = 0
  · have hpackets : (w.removeBefore column).packets = [] := if_pos hempty
    have hcount : (w.removeBefore column).count = 0 := hempty
    have hnext : (w.removeBefore column).nextColumn = w.nextColumn := by
      show (w.toEncoderPacketWindow.removeBefore column).nextColumn = _
      unfold EncoderPacketWindow.removeBefore
      dsimp only
      split
      · split <;> rfl
      · rfl
    refine ⟨?_, hnext ▸ h.next_lt, fun hne => absurd hcount hne, fun hne => absurd hcount hne,
      fun e _ he => by omega, fun e _ he => by omega⟩
    rw [hpackets]
    exact List.eq_nil_of_length_eq_zero hempty
  · have hpackets : (w.removeBefore column).packets = w.packets := if_neg hempty
    have hkept : w.toEncoderPacketWindow.removeBefore column = { w.toEncoderPacketWindow with
        firstUnremovedElement :=
          (w.toEncoderPacketWindow.removeBefore column).firstUnremovedElement } ∧
        w.firstUnremovedElement ≤
          (w.toEncoderPacketWindow.removeBefore column).firstUnremovedElement ∧
        ((w.toEncoderPacketWindow.removeBefore column).firstUnremovedElement =
            w.firstUnremovedElement ∨
          (w.toEncoderPacketWindow.removeBefore column).firstUnremovedElement < w.count) := by
      unfold EncoderPacketWindow.removeBefore at hempty ⊢
      dsimp only at hempty ⊢
      split at hempty
      · split at hempty
        next hout hbackwards =>
          rw [if_pos hout, if_pos hbackwards]
          exact ⟨rfl, le_rfl, .inl rfl⟩
        · exact absurd rfl hempty
      next hin =>
        rw [if_neg hin]
        refine ⟨rfl, le_max_left _ _, ?_⟩
        dsimp only
        rcases max_choice w.firstUnremovedElement (w.columnToElement column) with hmax | hmax
        · exact .inl hmax
        · right
          rw [hmax]
          exact not_le.mp hin
    obtain ⟨hsame, hle, hlt⟩ := hkept
    obtain ⟨horiginals, hnext, hstart, hlongest⟩ :
        (w.removeBefore column).originals = w.originals ∧
        (w.removeBefore column).nextColumn = w.nextColumn ∧
        (w.removeBefore column).columnStart = w.columnStart ∧
        (w.removeBefore column).longestPacket = w.longestPacket := by
      unfold ByteWindow.removeBefore
      dsimp only
      rw [hsame]
      exact ⟨rfl, rfl, rfl, rfl⟩
    have hcount : (w.removeBefore column).count = w.count := by
      rw [EncoderPacketWindow.count, horiginals, EncoderPacketWindow.count]
    have hcolumns : ∀ e, (w.removeBefore column).elementToColumn e = w.elementToColumn e := by
      intro e
      rw [EncoderPacketWindow.elementToColumn, EncoderPacketWindow.elementToColumn, hstart]
    have helement : ∀ e, (w.removeBefore column).getWindowElement e = w.getWindowElement e := by
      intro e
      rw [getWindowElement, hpackets, getWindowElement]
    refine ⟨by rw [horiginals, hpackets, h.sizes], hnext ▸ h.next_lt, fun hne => ?_,
      fun hne => ?_, fun e hge he => ?_, fun e hge he => ?_⟩
    · rw [hcount] at hne ⊢
      rcases hlt with hlt | hlt
      · exact hlt ▸ h.first_lt hne
      · exact hlt
    · rw [hnext, hcolumns, hcount]
      exact h.next (hcount ▸ hne)
    · rw [helement, hcolumns]
      exact h.column e (hle.trans hge) (hcount ▸ he)
    · rw [helement, hlongest]
      exact h.longest e (hle.trans hge) (hcount ▸ he)

theorem Sound.removeElements (h : w.Sound) (hlt : w.firstUnremovedElement < w.count) :
    w.removeElements.Sound := by
  obtain ⟨hnext, hstart, horiginals, hfirst⟩ := w.toEncoderPacketWindow.removeElements_fields
  have hlongest := removeElements_longest w.toEncoderPacketWindow
  rw [← removeElements_window] at hnext hstart horiginals hfirst hlongest
  have hremoved := Nat.div_mul_le_self w.firstUnremovedElement subwindowSize
  generalize hr : w.firstUnremovedElement / subwindowSize * subwindowSize = removed at *
  have hcount : w.removeElements.count = w.count - removed := by
    show w.removeElements.originals.length = w.originals.length - removed
    rw [horiginals, List.length_drop]
  have helement : ∀ e, w.removeElements.getWindowElement e = w.getWindowElement (removed + e) := by
    intro e
    rw [getWindowElement, removeElements_packets, hr, getWindowElement,
      List.getD_eq_getElem?_getD, List.getElem?_drop, ← List.getD_eq_getElem?_getD]
  have hcolumns : ∀ e, w.removeElements.elementToColumn e = w.elementToColumn (removed + e) := by
    intro e
    rw [EncoderPacketWindow.elementToColumn, hstart, EncoderPacketWindow.elementToColumn,
      EncoderPacketWindow.elementToColumn, Nat.add_mod_mod]
    congr 1
    omega
  refine ⟨by rw [removeElements_packets, hr, horiginals, h.sizes, List.map_drop],
    hnext ▸ h.next_lt, fun _ => by omega, fun _ => ?_, fun e hge he => ?_, fun e hge he => ?_⟩
  · rw [hnext, hcolumns, hcount, h.next (by omega)]
    congr 1
    omega
  · rw [helement, hcolumns]
    exact h.column _ (by omega) (by omega)
  · rw [helement, hlongest, ← h.size]
    refine le_longest ?_
    have hlt : removed + e < w.originals.length := by
      show removed + e < w.count
      omega
    refine List.mem_iff_getElem?.mpr ⟨removed + e - w.firstUnremovedElement, ?_⟩
    rw [List.getElem?_drop, Nat.add_sub_cancel' (by omega : _ ≤ removed + e),
      List.getElem?_eq_getElem hlt, List.getD_eq_getElem _ _ hlt]

theorem Sound.trim (h : w.Sound) (hne : w.count ≠ 0) : w.trim.Sound := by
  unfold ByteWindow.trim
  split
  · exact h.removeElements (h.first_lt hne)
  · exact h

/-- What is changed of the sums is not what the window knows of its packets. -/
theorem Sound.of_eq {w' : ByteWindow} (h : w.Sound) (hpackets : w'.packets = w.packets)
    (horiginals : w'.originals = w.originals) (hnext : w'.nextColumn = w.nextColumn)
    (hstart : w'.columnStart = w.columnStart)
    (hfirst : w'.firstUnremovedElement = w.firstUnremovedElement)
    (hlongest : w'.longestPacket = w.longestPacket) : w'.Sound := by
  have hcount : w'.count = w.count := by
    rw [EncoderPacketWindow.count, horiginals, EncoderPacketWindow.count]
  have hcolumns : ∀ e, w'.elementToColumn e = w.elementToColumn e := by
    intro e
    rw [EncoderPacketWindow.elementToColumn, EncoderPacketWindow.elementToColumn, hstart]
  have helement : ∀ e, w'.getWindowElement e = w.getWindowElement e := by
    intro e
    rw [getWindowElement, hpackets, getWindowElement]
  refine ⟨by rw [horiginals, hpackets, h.sizes], hnext ▸ h.next_lt, fun hne => ?_, fun hne => ?_,
    fun e hge he => ?_, fun e hge he => ?_⟩
  · rw [hcount] at hne ⊢
    rw [hfirst]
    exact h.first_lt hne
  · rw [hnext, hcolumns, hcount]
    exact h.next (hcount ▸ hne)
  · rw [helement, hcolumns]
    exact h.column e (hfirst ▸ hge) (hcount ▸ he)
  · rw [helement, hlongest]
    exact h.longest e (hfirst ▸ hge) (hcount ▸ he)

/-! ## Lengths of recovery packets -/

theorem length_addParity (xs : List SentPacket) (data : Bytes) (usedBytes : Nat) :
    (addParity xs data usedBytes).1.length = data.length ∧
      (addParity xs data usedBytes).2 =
        max usedBytes (EncoderPacketWindow.longest (xs.map fun x => x.buffer.length)) := by
  induction xs generalizing data usedBytes with
  | nil => simp [addParity, EncoderPacketWindow.longest]
  | cons x xs ih =>
      obtain ⟨hlength, hused⟩ := ih (addMem data x.buffer) (max usedBytes x.buffer.length)
      rw [addParity, hlength, hused, length_addMem, max_assoc]
      exact ⟨rfl, rfl⟩

theorem length_addCauchy (cauchyRow : Nat) (xs : List SentPacket) (cauchyColumn : Nat)
    (data : Bytes) (usedBytes : Nat) :
    (addCauchy cauchyRow xs cauchyColumn data usedBytes).1.length = data.length ∧
      (addCauchy cauchyRow xs cauchyColumn data usedBytes).2 =
        max usedBytes (EncoderPacketWindow.longest (xs.map fun x => x.buffer.length)) := by
  induction xs generalizing data cauchyColumn usedBytes with
  | nil => simp [addCauchy, EncoderPacketWindow.longest]
  | cons x xs ih =>
      obtain ⟨hlength, hused⟩ := ih ((cauchyColumn + 1) % cauchyMaxColumns)
        (muladdMem data (cauchyElement cauchyRow ((cauchyColumn + 1) % cauchyMaxColumns)).byte
          x.buffer) (max usedBytes x.buffer.length)
      rw [addCauchy, hlength, hused, length_muladdMem, max_assoc]
      exact ⟨rfl, rfl⟩

theorem length_addLightColumns (w : ByteWindow) (count k : Nat) (prng : PcgRandom)
    (recovery product : Bytes) :
    (w.addLightColumns count k prng recovery product).1.length = recovery.length := by
  induction k generalizing prng recovery product with
  | zero => rfl
  | succ k ih => rw [addLightColumns, ih, length_addMem]

/-- The sums are rolled, and the length of the recovery packet stays. -/
theorem addDenseColumns_frame (w : ByteWindow) (row : Nat) (recovery product : Bytes) :
    (w.addDenseColumns row recovery product).1.toEncoderPacketWindow =
      { w.toEncoderPacketWindow with sumEndElement := w.count } ∧
    (w.addDenseColumns row recovery product).1.packets = w.packets ∧
    (w.addDenseColumns row recovery product).2.1.length = recovery.length := by
  let Same (x : ByteWindow × Bytes × Bytes) : Prop :=
    x.1.toEncoderPacketWindow = w.toEncoderPacketWindow ∧ x.1.packets = w.packets ∧
      x.2.1.length = recovery.length
  have hbit : ∀ l bit x, Same x → Same (addDenseBit row l x bit) := by
    intro l bit x hx
    have hj : bit % columnSumCount < columnSumCount := Nat.mod_lt _ (by decide)
    obtain ⟨hrolls, -⟩ := x.1.getSum_spec hj (le_refl x.1.count) l
    obtain ⟨hwindow, hpackets, hlength⟩ := hx
    unfold addDenseBit
    split
    · dsimp only
      split
      · exact ⟨hrolls.window.trans hwindow, hrolls.packets.trans hpackets,
          (length_addMem _ _).trans hlength⟩
      · exact ⟨hrolls.window.trans hwindow, hrolls.packets.trans hpackets, hlength⟩
    · exact ⟨hwindow, hpackets, hlength⟩
  have hlane : ∀ l (bits : List Nat) x, Same x → Same (bits.foldl (addDenseBit row l) x) := by
    intro l bits
    induction bits with
    | nil => exact fun x hx => hx
    | cons bit bits ih => exact fun x hx => ih _ (hbit l bit x hx)
  have hall : ∀ (lanes : List Nat) x, Same x → Same (lanes.foldl (fun x l =>
      (List.range (2 * columnSumCount)).foldl (addDenseBit row l) x) x) := by
    intro lanes
    induction lanes with
    | nil => exact fun x hx => hx
    | cons l lanes ih => exact fun x hx => ih _ (hlane l _ x hx)
  obtain ⟨hwindow, hpackets, hlength⟩ := hall (List.range columnLaneCount)
    (w, recovery, product) ⟨rfl, rfl, rfl⟩
  refine ⟨?_, hpackets, hlength⟩
  unfold addDenseColumns
  dsimp only
  rw [hwindow]

end ByteWindow

/-! ## The encoder and its window -/

namespace ByteEncoder

/-- The encoder without the bytes of its packets -/
def view (s : ByteEncoder) : SiameseEncoder := {
  window := s.window.toEncoderPacketWindow
  ack := s.ack }

variable {s : ByteEncoder}

/-- A recovery packet and the encoder after it are what the window makes of them. -/
structure Follows (ack : EncoderAcknowledgementState) (x : EncodedPacket × ByteEncoder)
    (y : Recovery × EncoderPacketWindow) : Prop where
  bytes : x.1.body.length = y.1.bytes
  metadata : x.1.metadata = y.1.metadata
  window : x.2.window.toEncoderPacketWindow = y.2
  sound : x.2.window.Sound
  ack : x.2.ack = ack

theorem follows_single (h : s.window.Sound) (hne : s.window.count ≠ 0) :
    Follows s.ack s.generateSinglePacket
      (s.window.toEncoderPacketWindow.generateSinglePacket, s.window.toEncoderPacketWindow) := by
  refine ⟨?_, ?_, rfl, h, rfl⟩
  · exact (h.size _).symm
  · show RecoveryMetadata.mk 1 1 _ = RecoveryMetadata.mk 1 1 _
    rw [h.column _ le_rfl (h.first_lt hne)]

theorem follows_cauchy (h : s.window.Sound) (hne : s.window.count ≠ 0) :
    Follows s.ack s.generateCauchyPacket
      (s.window.toEncoderPacketWindow.generateCauchyPacket, s.window.toEncoderPacketWindow) := by
  have hfirst := h.first_lt hne
  have hlt : s.window.firstUnremovedElement < s.window.originals.length := hfirst
  have hlt' : s.window.firstUnremovedElement < s.window.packets.length := by
    rw [← h.count]
    exact hfirst
  -- the longest of the first packet and the others is the longest of all
  have hlongest : EncoderPacketWindow.longest
      (s.window.originals.drop s.window.firstUnremovedElement) =
      max (s.window.getWindowElement s.window.firstUnremovedElement).buffer.length
        (EncoderPacketWindow.longest ((s.window.packets.drop
          (s.window.firstUnremovedElement + 1)).map fun x => x.buffer.length)) := by
    rw [h.sizes, ← List.map_drop, List.drop_eq_getElem_cons hlt', ByteWindow.getWindowElement,
      List.getD_eq_getElem _ _ hlt']
    rfl
  have hroom : EncoderPacketWindow.longest
      (s.window.originals.drop s.window.firstUnremovedElement) ≤ s.window.longestPacket := by
    refine EncoderPacketWindow.longest_le fun bytes hb => ?_
    obtain ⟨i, hi, rfl⟩ := List.mem_iff_getElem.mp hb
    rw [List.length_drop] at hi
    have hlast : s.window.firstUnremovedElement + i < s.window.originals.length := by omega
    rw [List.getElem_drop, ← List.getD_eq_getElem _ 0 hlast, h.size]
    exact h.longest _ (Nat.le_add_right _ _) hlast
  unfold generateCauchyPacket
  dsimp only
  split
  · obtain ⟨hlength, hused⟩ := ByteWindow.length_addParity
      (s.window.packets.drop (s.window.firstUnremovedElement + 1))
      (growZeroPadded (s.window.getWindowElement s.window.firstUnremovedElement).buffer
        s.window.longestPacket)
      (s.window.getWindowElement s.window.firstUnremovedElement).buffer.length
    refine ⟨?_, rfl, rfl, h, rfl⟩
    dsimp only
    rw [List.length_take, hlength, hused, ← hlongest, length_growZeroPadded]
    exact Nat.min_eq_left (hroom.trans (le_max_right _ _))
  · obtain ⟨hlength, hused⟩ := ByteWindow.length_addCauchy s.nextCauchyRow
      (s.window.packets.drop (s.window.firstUnremovedElement + 1))
      (s.window.elementToColumn s.window.firstUnremovedElement % cauchyMaxColumns)
      (growZeroPadded (mulMem (s.window.getWindowElement s.window.firstUnremovedElement).buffer
        (cauchyElement s.nextCauchyRow (s.window.elementToColumn
          s.window.firstUnremovedElement % cauchyMaxColumns)).byte) s.window.longestPacket)
      (s.window.getWindowElement s.window.firstUnremovedElement).buffer.length
    refine ⟨?_, rfl, rfl, h, rfl⟩
    dsimp only
    rw [List.length_take, hlength, hused, ← hlongest, length_growZeroPadded, length_mulMem]
    exact Nat.min_eq_left (hroom.trans (le_max_right _ _))

theorem follows_sums (h : s.window.Sound) :
    Follows s.ack s.generateSumPacket s.window.toEncoderPacketWindow.generateSumPacket := by
  obtain ⟨hwindow, hpackets, hlength⟩ := s.window.addDenseColumns_frame s.nextRow
    (List.replicate s.window.longestPacket 0) (List.replicate s.window.longestPacket 0)
  unfold generateSumPacket
  dsimp only
  refine ⟨?_, ?_, hwindow, ?_, rfl⟩
  · dsimp only
    rw [length_muladdMem, ByteWindow.length_addLightColumns, hlength, List.length_replicate]
    rfl
  · dsimp only
    rw [hwindow]
    rfl
  · refine h.of_eq hpackets ?_ ?_ ?_ ?_ ?_
    all_goals rw [hwindow]

theorem follows_generate (h : s.window.Sound) (hne : s.window.count ≠ 0) :
    Follows s.ack s.generate s.window.toEncoderPacketWindow.generate := by
  have hreset : (s.window.resetSums s.window.firstUnremovedElement).Sound :=
    h.of_eq rfl rfl rfl rfl rfl rfl
  have hstopped : ({ s.window with
      sumEndElement := s.window.sumStartElement } : ByteWindow).Sound :=
    h.of_eq rfl rfl rfl rfl rfl rfl
  have hsums (w : ByteWindow) (hw : w.Sound) : Follows s.ack
      (generateSumPacket { s with window := w }) w.toEncoderPacketWindow.generateSumPacket :=
    @follows_sums { s with window := w } hw
  have hcauchy (w : ByteWindow) (hw : w.Sound) (hcount : w.count ≠ 0) : Follows s.ack
      (generateCauchyPacket { s with window := w })
      (w.toEncoderPacketWindow.generateCauchyPacket, w.toEncoderPacketWindow) :=
    @follows_cauchy { s with window := w } hw hcount
  unfold generate EncoderPacketWindow.generate
  dsimp only
  by_cases hsingle : s.window.getUnacknowledgedCount = 1
  · rw [if_pos hsingle, if_pos hsingle]
    exact follows_single h hne
  rw [if_neg hsingle, if_neg hsingle]
  split
  · split
    · exact follows_cauchy h hne
    · exact hsums _ hreset
  · split
    · exact hcauchy _ hstopped hne
    · exact follows_sums h

/-- **`Encode`** of a window that is not empty -/
theorem follows_encode (h : s.window.Sound) (hne : s.window.count ≠ 0) :
    ∃ x t, s.encode = (some x, t) ∧ Follows s.ack (x, t) s.window.toEncoderPacketWindow.encode := by
  have htrim := h.trim hne
  have hcount : s.window.trim.count ≠ 0 := by
    unfold ByteWindow.trim
    split
    · have hremoved := Nat.div_mul_le_self s.window.firstUnremovedElement subwindowSize
      have hlt : s.window.firstUnremovedElement < s.window.originals.length := h.first_lt hne
      show s.window.removeElements.originals.length ≠ 0
      rw [ByteWindow.removeElements_window,
        (s.window.toEncoderPacketWindow.removeElements_fields).2.2.1, List.length_drop]
      omega
    · exact hne
  have hfollows := follows_generate (s := { s with window := s.window.trim }) htrim hcount
  rw [ByteWindow.trim_window] at hfollows
  exact ⟨_, _, if_neg hne, hfollows⟩

theorem add_sound (h : s.window.Sound) (data : Bytes) : (s.add data).2.2.window.Sound := by
  unfold add
  split
  · exact h
  split
  · exact h
  · exact h.add data

theorem encode_sound (h : s.window.Sound) : s.encode.2.window.Sound := by
  by_cases hempty : s.window.count = 0
  · rw [encode, if_pos hempty]
    exact h
  · obtain ⟨x, t, heq, hfollows⟩ := follows_encode h hempty
    rw [heq]
    exact hfollows.sound

/-- A message that is refused drops no packet. Any other does what `Acknowledge` does with it. -/
theorem onAcknowledgementData_spec (s : ByteEncoder) (message : Bytes) :
    ((s.onAcknowledgementData message).1 = false ∧
      (s.onAcknowledgementData message).2.window = s.window) ∨
    ∃ num ranges, deserializeHeaderPacketNum message = some (num, ranges) ∧
      s.onAcknowledgementData message = (true, s.acknowledge num ranges) := by
  unfold onAcknowledgementData
  split
  · exact .inl ⟨rfl, rfl⟩
  next num ranges hmessage =>
  unfold acknowledge
  dsimp only
  by_cases hold : Cyclic.backwards siamesePacketNumCount
      (Cyclic.distance siamesePacketNumCount num s.ack.nextColumnExpected) = true
  · exact .inr ⟨num, ranges, hmessage, by rw [if_pos hold, if_pos hold]⟩
  by_cases hrepeats : s.ack.nextColumnExpected = num ∧ s.ack.repeats ranges = true
  · refine .inr ⟨num, ranges, hmessage, ?_⟩
    rw [if_neg hold, if_pos hrepeats, if_neg hold, if_pos hrepeats]
  rw [if_neg hold, if_neg hrepeats]
  split
  · exact .inl ⟨rfl, rfl⟩
  · exact .inr ⟨num, ranges, hmessage, by rw [if_neg hold, if_neg hrepeats]⟩

theorem acknowledge_sound (h : s.window.Sound) (num : Nat) (ranges : Bytes) :
    (s.acknowledge num ranges).window.Sound := by
  unfold acknowledge
  dsimp only
  split
  · exact h
  split
  · exact h
  · exact h.removeBefore num

theorem encoderAck_sound (h : s.window.Sound) (message : Bytes) :
    (s.encoderAck message).2.2.window.Sound := by
  have hsound : (s.onAcknowledgementData message).2.window.Sound := by
    rcases s.onAcknowledgementData_spec message with ⟨-, hwindow⟩ | ⟨num, ranges, -, heq⟩
    · exact hwindow ▸ h
    · rw [heq]
      exact acknowledge_sound h num ranges
  unfold encoderAck
  dsimp only
  split <;> exact hsound

theorem view_acknowledge (s : ByteEncoder) (num : Nat) (ranges : Bytes) :
    (s.acknowledge num ranges).view = s.view.acknowledge num ranges := by
  unfold acknowledge SiameseEncoder.acknowledge
  by_cases hold : Cyclic.backwards siamesePacketNumCount
      (Cyclic.distance siamesePacketNumCount num s.ack.nextColumnExpected) = true
  · simp [view, hold]
  by_cases hrepeats : s.ack.nextColumnExpected = num ∧ s.ack.repeats ranges = true
  · simp [view, hrepeats]
  · simp [view, hold, hrepeats, ByteWindow.removeBefore]

theorem view_add (s : ByteEncoder) (data : Bytes) :
    ((s.add data).1, (s.add data).2.1, (s.add data).2.2.view) = s.view.add data := by
  unfold add SiameseEncoder.add
  by_cases hdata : SiameseEncoder.Acceptable data
  · by_cases hfull : s.window.getRemainingSlots = 0
    · simp [view, hdata, hfull]
    · simp [view, hdata, hfull, ByteWindow.add]
  · simp [view, hdata]

end ByteEncoder

/-- An encoder whose window is sound -/
structure SoundEncoder extends ByteEncoder where
  sound : window.Sound

namespace SoundEncoder

def create : SoundEncoder := { sound := ByteWindow.sound_init }

def add (e : SoundEncoder) (data : Bytes) : SiameseResult × Nat × SoundEncoder :=
  let x := e.toByteEncoder.add data
  (x.1, x.2.1, ⟨x.2.2, ByteEncoder.add_sound e.sound data⟩)

/-- `siamese_encode` -/
def encode (e : SoundEncoder) : SiameseResult × Bytes × SoundEncoder :=
  let t : SoundEncoder := ⟨e.toByteEncoder.encode.2, ByteEncoder.encode_sound e.sound⟩
  match e.toByteEncoder.encode.1 with
  | none => (.needMoreData, [], t)
  | some x => (.success, x.bytes, t)

def encoderAck (e : SoundEncoder) (message : Bytes) : SiameseResult × Nat × SoundEncoder :=
  let x := e.toByteEncoder.encoderAck message
  (x.1, x.2.1, ⟨x.2.2, ByteEncoder.encoderAck_sound e.sound message⟩)

end SoundEncoder

/-- The codec with the encoder of this library. -/
def Siamese.withEncoder (S : Siamese) : Siamese := { S with
  Encoder := SoundEncoder
  encoderCreate := SoundEncoder.create
  encoderAdd := SoundEncoder.add
  encode := SoundEncoder.encode
  encoderAck := SoundEncoder.encoderAck }

/-- **Each call on an encoder does to its window what the window without bytes does, and its
recovery packets have the length and the footer that the window gives them.** -/
theorem Siamese.withEncoder_windowed (S : Siamese) :
    S.withEncoder.Windowed fun e : SoundEncoder => e.toByteEncoder.view where
  create := rfl
  add e data := e.toByteEncoder.view_add data
  encode_empty e hempty := by
    have heq : e.toByteEncoder.encode = (none, e.toByteEncoder) := if_pos hempty
    show (SoundEncoder.encode e).1 = _ ∧
      ByteEncoder.view (SoundEncoder.encode e).2.2.toByteEncoder = e.toByteEncoder.view
    simp [SoundEncoder.encode, heq]
  encode e hne := by
    obtain ⟨x, t, heq, hfollows⟩ := ByteEncoder.follows_encode e.sound hne
    show (SoundEncoder.encode e).1 = _ ∧
      ByteEncoder.view (SoundEncoder.encode e).2.2.toByteEncoder = _ ∧
      ∃ body row, _ ∧ (SoundEncoder.encode e).2.1 = _
    have hview : t.view = e.toByteEncoder.view.encode.2 := by
      unfold ByteEncoder.view SiameseEncoder.encode
      rw [hfollows.window, hfollows.ack]
    refine ⟨by simp [SoundEncoder.encode, heq], by simp [SoundEncoder.encode, heq, hview],
      x.body, UInt8.ofNat x.row, hfollows.bytes, ?_⟩
    have hmetadata : x.metadata = e.toByteEncoder.view.encode.1.metadata := hfollows.metadata
    simp [SoundEncoder.encode, heq, EncodedPacket.bytes, hmetadata]
  ack e message hsuccess := by
    show ∃ num ranges, _ ∧ ByteEncoder.view (e.toByteEncoder.encoderAck message).2.2 = _ ∧
      (e.toByteEncoder.encoderAck message).2.1 = _
    change (e.toByteEncoder.encoderAck message).1 = .success at hsuccess
    unfold ByteEncoder.encoderAck at hsuccess ⊢
    rcases e.toByteEncoder.onAcknowledgementData_spec message with
      ⟨hrefused, -⟩ | ⟨num, ranges, hmessage, heq⟩
    · simp [hrefused] at hsuccess
    · have hview := e.toByteEncoder.view_acknowledge num ranges
      refine ⟨num, ranges, hmessage, ?_⟩
      simp [heq, ← hview]
      rfl
  ack_refused e message hrefused := by
    show (ByteEncoder.view (e.toByteEncoder.encoderAck message).2.2).window = _
    change (e.toByteEncoder.encoderAck message).1 ≠ .success at hrefused
    unfold ByteEncoder.encoderAck at hrefused ⊢
    rcases e.toByteEncoder.onAcknowledgementData_spec message with
      ⟨hfalse, hwindow⟩ | ⟨num, ranges, -, heq⟩
    · simp [hfalse, ByteEncoder.view, hwindow]
    · simp [heq] at hrefused

end FecRelay
