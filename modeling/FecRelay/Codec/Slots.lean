import FecRelay.Codec.EncoderWindow

/-!
# The slots of the encoder's window

A packet is accepted while the window has fewer than `SIAMESE_MAX_PACKETS` elements. An
acknowledged packet keeps its slot until the next recovery packet, and then until there
are enough of them, and a window that starts anew skips some slots. What is proved here
holds whatever the acks say.
-/

namespace FecRelay

namespace EncoderPacketWindow

/-- The slots that are taken when the next packet is added, but for its own. -/
def slotsTaken (w : EncoderPacketWindow) : Nat :=
  if w.count = 0 then w.nextColumn % columnLaneCount else w.count

/-- The slots that the next recovery packet frees. -/
def slotsFreed (w : EncoderPacketWindow) : Nat :=
  if w.count ≠ 0 ∧ encoderRemoveThreshold ≤ w.firstUnremovedElement then
    w.firstUnremovedElement / subwindowSize * subwindowSize
  else 0

/-- There are not too many elements, and the first one that is needed is one of them. -/
structure Sound (w : EncoderPacketWindow) : Prop where
  count_le : w.count ≤ siameseMaxPackets
  first_lt : w.count ≠ 0 → w.firstUnremovedElement < w.count

variable {w : EncoderPacketWindow}

theorem sound_init : ({} : EncoderPacketWindow).Sound where
  count_le := Nat.zero_le _
  first_lt h := absurd rfl h

theorem firstUnremovedElement_add (w : EncoderPacketWindow) (bytes : Nat) :
    (w.add bytes).firstUnremovedElement =
      if w.count = 0 then w.nextColumn % columnLaneCount else w.firstUnremovedElement := by
  unfold add
  by_cases hcount : w.count = 0 <;> simp [hcount, startNewWindow]

theorem Sound.add (h : w.Sound) (hroom : w.count < siameseMaxPackets) (bytes : Nat) :
    (w.add bytes).Sound := by
  have hlane : columnLaneCount < siameseMaxPackets := by decide
  have hmod : w.nextColumn % columnLaneCount < columnLaneCount := Nat.mod_lt _ (by decide)
  constructor
  · rw [count_add]
    split <;> omega
  · intro _
    rw [count_add, firstUnremovedElement_add]
    by_cases hcount : w.count = 0
    · rw [if_pos hcount, if_pos hcount]
      omega
    · have := h.first_lt hcount
      rw [if_neg hcount, if_neg hcount]
      omega

theorem Sound.removeBefore (h : w.Sound) (column : Nat) : (w.removeBefore column).Sound := by
  unfold EncoderPacketWindow.removeBefore
  dsimp only
  split
  · split
    · exact h
    · exact ⟨Nat.zero_le _, fun hne => absurd rfl hne⟩
  · next hinside =>
      refine ⟨h.count_le, fun hcount => ?_⟩
      exact max_lt (h.first_lt hcount) (not_le.mp hinside)

theorem count_trim (hcount : w.count ≠ 0) :
    w.trim.count = w.count - w.slotsFreed := by
  unfold trim slotsFreed
  by_cases hmany : encoderRemoveThreshold ≤ w.firstUnremovedElement
  · obtain ⟨-, -, horiginals, -⟩ := w.removeElements_fields
    rw [if_pos hmany, if_pos ⟨hcount, hmany⟩]
    show w.removeElements.originals.length = _
    rw [horiginals, List.length_drop]
    rfl
  · rw [if_neg hmany, if_neg (fun hboth => hmany hboth.2)]
    exact (Nat.sub_zero _).symm

theorem firstUnremovedElement_trim (hcount : w.count ≠ 0) :
    w.trim.firstUnremovedElement = w.firstUnremovedElement - w.slotsFreed := by
  unfold trim slotsFreed
  by_cases hmany : encoderRemoveThreshold ≤ w.firstUnremovedElement
  · rw [if_pos hmany, if_pos ⟨hcount, hmany⟩]
    exact w.removeElements_fields.2.2.2
  · rw [if_neg hmany, if_neg (fun hboth => hmany hboth.2)]
    exact (Nat.sub_zero _).symm

theorem slotsFreed_le (w : EncoderPacketWindow) : w.slotsFreed ≤ w.firstUnremovedElement := by
  unfold slotsFreed
  split
  · exact Nat.div_mul_le_self _ _
  · exact Nat.zero_le _

theorem count_encode (hcount : w.count ≠ 0) :
    w.encode.2.count = w.count - w.slotsFreed := by
  obtain ⟨-, -, horiginals, -⟩ := w.trim.generate_fields
  rw [← count_trim hcount]
  exact congrArg List.length horiginals

theorem firstUnremovedElement_encode (hcount : w.count ≠ 0) :
    w.encode.2.firstUnremovedElement = w.firstUnremovedElement - w.slotsFreed := by
  obtain ⟨-, -, -, hfirst⟩ := w.trim.generate_fields
  exact hfirst.trans (firstUnremovedElement_trim hcount)

theorem Sound.encode (h : w.Sound) (hcount : w.count ≠ 0) : w.encode.2.Sound := by
  have hle := h.count_le
  have hlt := h.first_lt hcount
  have hfreed := w.slotsFreed_le
  constructor
  · rw [count_encode hcount]
    omega
  · intro _
    rw [count_encode hcount, firstUnremovedElement_encode hcount]
    omega

/-! ## Slots taken and freed -/

theorem Sound.slotsTaken_le (h : w.Sound) : w.slotsTaken ≤ siameseMaxPackets := by
  have hlane : columnLaneCount < siameseMaxPackets := by decide
  have hmod : w.nextColumn % columnLaneCount < columnLaneCount := Nat.mod_lt _ (by decide)
  have hle := h.count_le
  unfold slotsTaken
  split <;> omega

theorem count_le_slotsTaken (w : EncoderPacketWindow) : w.count ≤ w.slotsTaken := by
  unfold slotsTaken
  split <;> omega

@[simp] theorem slotsTaken_add (w : EncoderPacketWindow) (bytes : Nat) :
    (w.add bytes).slotsTaken = w.slotsTaken + 1 := by
  have hcount := w.count_add bytes
  unfold slotsTaken
  by_cases hempty : w.count = 0
  · rw [if_pos hempty] at hcount ⊢
    rw [if_neg (by omega), hcount]
  · rw [if_neg hempty] at hcount ⊢
    rw [if_neg (by omega), hcount]

@[simp] theorem slotsFreed_add (w : EncoderPacketWindow) (bytes : Nat) :
    (w.add bytes).slotsFreed = w.slotsFreed := by
  have hcount := w.count_add bytes
  have hfirst := w.firstUnremovedElement_add bytes
  have hlane : columnLaneCount < encoderRemoveThreshold := by decide
  have hmod : w.nextColumn % columnLaneCount < columnLaneCount := Nat.mod_lt _ (by decide)
  unfold slotsFreed
  by_cases hempty : w.count = 0
  · -- a window that starts anew has nothing to free
    rw [if_pos hempty] at hcount hfirst
    rw [if_neg (by omega), if_neg (by omega)]
  · rw [if_neg hempty] at hcount hfirst
    simp [hcount, hfirst, hempty]

theorem slotsTaken_encode (h : w.Sound) (hcount : w.count ≠ 0) :
    w.encode.2.slotsTaken = w.slotsTaken - w.slotsFreed := by
  have hlt := h.first_lt hcount
  have hfreed := w.slotsFreed_le
  have hencode := count_encode hcount
  unfold slotsTaken
  rw [if_neg hcount, if_neg (by omega), hencode]

/-- A recovery packet leaves too few elements to be freed. -/
theorem slotsFreed_encode (hcount : w.count ≠ 0) : w.encode.2.slotsFreed = 0 := by
  have hfirst := firstUnremovedElement_encode hcount
  have hfew : w.encode.2.firstUnremovedElement < encoderRemoveThreshold := by
    rw [hfirst]
    unfold slotsFreed
    split
    · have hmod := Nat.mod_lt w.firstUnremovedElement (show 0 < subwindowSize by decide)
      have hdiv := Nat.div_add_mod' w.firstUnremovedElement subwindowSize
      have hsize : subwindowSize ≤ encoderRemoveThreshold := by decide
      omega
    · next hfew =>
        have := fun hmany => hfew ⟨hcount, hmany⟩
        omega
  unfold slotsFreed
  rw [if_neg (fun hboth => absurd hboth.2 (not_le.mpr hfew))]

/-- While nothing is acknowledged, every packet has a slot, and none is freed. -/
theorem Holds.slots {n : Nat} (h : w.Holds n 0) : w.slotsTaken = n ∧ w.slotsFreed = 0 := by
  by_cases hcount : w.count = 0
  · obtain rfl := h.empty hcount
    have hnext := h.nextColumn
    unfold slotsTaken slotsFreed
    simp [hcount, hnext]
  · obtain ⟨base, hsum, -, hfirst, -⟩ := h.elements hcount
    have hfreed := w.slotsFreed_le
    unfold slotsTaken
    rw [if_neg hcount]
    omega

end EncoderPacketWindow

/-! ## Codecs with a window -/

theorem SiameseEncoder.sound_acknowledge {s : SiameseEncoder} (h : s.window.Sound) (num : Nat)
    (ranges : Bytes) : (s.acknowledge num ranges).window.Sound := by
  unfold acknowledge
  dsimp only
  split
  · exact h
  split
  · exact h
  · exact h.removeBefore num

/-- Whatever acks an encoder was given, its window is sound. -/
theorem Siamese.Windowed.sound {S : Siamese} {view : S.Encoder → SiameseEncoder}
    (h : S.Windowed view) {added emitted : List Bytes} {e : S.Encoder}
    (hrun : S.EncoderRun added emitted e) : (view e).window.Sound := by
  induction hrun with
  | create =>
      rw [h.create]
      exact EncoderPacketWindow.sound_init
  | add _ hsuccess ih =>
      rw [(h.of_add hsuccess).2]
      exact ih.add (h.add_success_iff.mp hsuccess).2 _
  | encode _ hsuccess ih =>
      rw [h.of_encode hsuccess]
      exact ih.encode (h.encode_success_iff.mp hsuccess)
  | @ack added emitted e message _ ih =>
      by_cases hsuccess : (S.encoderAck e message).1 = .success
      · obtain ⟨num, ranges, -, hview, -⟩ := h.ack e message hsuccess
        rw [hview]
        exact SiameseEncoder.sound_acknowledge ih num ranges
      · rw [h.ack_refused e message hsuccess]
        exact ih

/-- A packet that is refused leaves the encoder as it was. -/
theorem Siamese.Windowed.of_add_refused {S : Siamese} {view : S.Encoder → SiameseEncoder}
    (h : S.Windowed view) {e : S.Encoder} {data : Bytes}
    (hrefused : (S.encoderAdd e data).1 ≠ .success) : view (S.encoderAdd e data).2.2 = view e := by
  have hadd := h.add e data
  have hfirst : (S.encoderAdd e data).1 = ((view e).add data).1 := congrArg Prod.fst hadd
  have hview : view (S.encoderAdd e data).2.2 = ((view e).add data).2.2 := congrArg (·.2.2) hadd
  rw [hfirst] at hrefused
  rw [hview]
  unfold SiameseEncoder.add at hrefused ⊢
  split
  · rfl
  split
  · rfl
  · next hacceptable hroom => simp [hacceptable, hroom] at hrefused

end FecRelay
