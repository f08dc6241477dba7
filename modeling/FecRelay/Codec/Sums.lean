import FecRelay.Codec.Slots

/-!
# Recovery packets made from running sums

The encoder makes a recovery packet of few packets directly, and one of many from running
sums. A packet that is made directly has counts of one byte in its footer, so it is at most
six bytes longer than the longest packet it covers. A packet that is made from running sums
can be two bytes longer than that, once either count takes two bytes.
-/

namespace FecRelay

namespace EncoderPacketWindow

/-- `newSumCountUB` -/
def newSumCountUB (w : EncoderPacketWindow) : Nat := w.count + w.sumErasedCount - w.sumStartElement

/-- There are no running sums, or they cover too many packets to go on. -/
def SumsStale (w : EncoderPacketWindow) : Prop :=
  w.sumEndElement ≤ w.sumStartElement ∨ siameseMaxPackets ≤ w.newSumCountUB

instance (w : EncoderPacketWindow) : Decidable w.SumsStale := inferInstanceAs (Decidable (_ ∨ _))

/-- The next recovery packet of a trimmed window is made from running sums. -/
def MadeFromSums (w : EncoderPacketWindow) : Prop :=
  if w.SumsStale then siameseCauchyThreshold < w.getUnacknowledgedCount
  else siameseSumResetThreshold < w.getUnacknowledgedCount ∧
    siameseCauchyThreshold < w.newSumCountUB

instance (w : EncoderPacketWindow) : Decidable w.MadeFromSums :=
  inferInstanceAs (Decidable (if w.SumsStale then siameseCauchyThreshold < _ else _ ∧ _))

/-- The window with the running sums that the packet is made from. -/
def withSums (w : EncoderPacketWindow) : EncoderPacketWindow :=
  if w.SumsStale then w.resetSums w.firstUnremovedElement else w

/-- What a packet from the running sums covers. -/
def sumMetadata (w : EncoderPacketWindow) : RecoveryMetadata where
  sumCount := w.count - w.sumStartElement + w.sumErasedCount
  ldpcCount := w.getUnacknowledgedCount
  columnStart := w.sumColumnStart

/-- If the next recovery packet is made from running sums, the longest packet and the footer
take at most `limit` bytes. -/
def SumsFit (limit : Nat) (w : EncoderPacketWindow) : Prop :=
  w.trim.MadeFromSums →
    w.trim.longestPacket + footerBytes w.trim.withSums.sumMetadata ≤ limit

instance (limit : Nat) (w : EncoderPacketWindow) : Decidable (w.SumsFit limit) :=
  inferInstanceAs (Decidable (_ → _))

variable {w : EncoderPacketWindow}

theorem generate_of_sums (h : w.MadeFromSums) : w.generate = w.withSums.generateSumPacket := by
  unfold MadeFromSums at h
  unfold generate withSums
  have hstale : w.SumsStale ↔
      w.sumEndElement ≤ w.sumStartElement ∨ siameseMaxPackets ≤ w.newSumCountUB := Iff.rfl
  unfold newSumCountUB at h hstale
  dsimp only
  by_cases hs : w.SumsStale
  · rw [if_pos hs] at h ⊢
    have hmany : w.getUnacknowledgedCount ≠ 1 := by
      unfold siameseCauchyThreshold at h
      omega
    rw [if_neg hmany, if_pos (hstale.mp hs), if_neg (not_le.mpr h)]
  · rw [if_neg hs] at h ⊢
    have hmany : w.getUnacknowledgedCount ≠ 1 := by
      unfold siameseSumResetThreshold at h
      omega
    rw [if_neg hmany, if_neg (fun hold => hs (hstale.mpr hold)), if_neg (by omega)]

/-- A packet that is not made from running sums is made of one packet or of few. -/
theorem generate_of_not_sums (h : ¬w.MadeFromSums) :
    (w.getUnacknowledgedCount = 1 ∧ w.generate.1 = w.generateSinglePacket) ∨
      w.generate.1 = w.generateCauchyPacket ∧
        (w.getUnacknowledgedCount ≤ siameseCauchyThreshold ∨
          ¬w.SumsStale ∧ w.newSumCountUB ≤ siameseCauchyThreshold) := by
  unfold MadeFromSums at h
  unfold generate
  have hstale : w.SumsStale ↔ w.sumEndElement ≤ w.sumStartElement ∨
      siameseMaxPackets ≤ w.count + w.sumErasedCount - w.sumStartElement := Iff.rfl
  have hcount : w.newSumCountUB = w.count + w.sumErasedCount - w.sumStartElement := rfl
  dsimp only
  by_cases hone : w.getUnacknowledgedCount = 1
  · rw [if_pos hone]
    exact Or.inl ⟨hone, rfl⟩
  rw [if_neg hone]
  by_cases hs : w.SumsStale
  · rw [if_pos hs] at h
    rw [if_pos (hstale.mp hs), if_pos (not_lt.mp h)]
    exact Or.inr ⟨rfl, Or.inl (not_lt.mp h)⟩
  · rw [if_neg hs, hcount] at h
    have hreset : siameseSumResetThreshold ≤ siameseCauchyThreshold := by decide
    rw [if_neg (fun hold => hs (hstale.mpr hold)), if_pos (by omega), hcount]
    refine Or.inr ⟨rfl, ?_⟩
    by_cases hfew : w.getUnacknowledgedCount ≤ siameseSumResetThreshold
    · exact Or.inl (hfew.trans hreset)
    · exact Or.inr ⟨hs, by omega⟩

/-! ## Bounded windows -/

/-- No packet takes more than `m` bytes, and the running sums go back to the first packet
that is needed. -/
structure Bounded (m : Nat) (w : EncoderPacketWindow) : Prop where
  originals : ∀ bytes ∈ w.originals, bytes ≤ m
  sums : w.sumStartElement < w.sumEndElement →
    w.sumStartElement ≤ w.firstUnremovedElement + w.sumErasedCount

variable {m : Nat}

theorem bounded_init : ({} : EncoderPacketWindow).Bounded m where
  originals _ hbytes := absurd hbytes List.not_mem_nil
  sums h := absurd h (Nat.lt_irrefl _)

theorem Bounded.add (h : w.Bounded m) {bytes : Nat} (hbytes : bytes ≤ m) :
    (w.add bytes).Bounded m := by
  unfold EncoderPacketWindow.add
  dsimp only
  by_cases hcount : w.count = 0
  · rw [if_pos hcount]
    refine ⟨fun b hb => ?_, fun hlt => absurd hlt (Nat.lt_irrefl _)⟩
    rcases List.mem_append.mp hb with hb | hb
    · rw [List.eq_of_mem_replicate hb]
      exact Nat.zero_le _
    · rw [List.mem_singleton.mp hb]
      exact hbytes
  · rw [if_neg hcount]
    refine ⟨fun b hb => ?_, h.sums⟩
    rcases List.mem_append.mp hb with hb | hb
    · exact h.originals b hb
    · rw [List.mem_singleton.mp hb]
      exact hbytes

theorem Bounded.removeBefore (h : w.Bounded m) (column : Nat) :
    (w.removeBefore column).Bounded m := by
  unfold EncoderPacketWindow.removeBefore
  dsimp only
  split
  · split
    · exact h
    · exact ⟨fun _ hb => absurd hb List.not_mem_nil, h.sums⟩
  · refine ⟨h.originals, fun hlt => le_trans (h.sums hlt) ?_⟩
    exact Nat.add_le_add_right (le_max_left _ _) _

theorem bounded_resetSums (h : ∀ bytes ∈ w.originals, bytes ≤ m) (element : Nat) :
    (w.resetSums element).Bounded m :=
  ⟨h, fun hlt => absurd hlt (Nat.lt_irrefl _)⟩

theorem Bounded.trim (h : w.Bounded m) : w.trim.Bounded m := by
  unfold EncoderPacketWindow.trim
  split
  · have hremoved := Nat.div_mul_le_self w.firstUnremovedElement subwindowSize
    have hkept : ∀ bytes ∈ w.originals.drop (w.firstUnremovedElement / subwindowSize * subwindowSize),
        bytes ≤ m := fun bytes hb => h.originals bytes (List.mem_of_mem_drop hb)
    have hsums := h.sums
    unfold removeElements
    by_cases hrunning : w.sumStartElement < w.sumEndElement
    · simp only [hrunning, if_true]
      split
      · exact bounded_resetSums hkept _
      · refine ⟨hkept, fun _ => ?_⟩
        dsimp only
        have := hsums hrunning
        omega
    · simp only [hrunning, if_false]
      rw [if_pos (by omega)]
      exact bounded_resetSums hkept _
  · exact h

theorem Bounded.generate (h : w.Bounded m) : w.generate.2.Bounded m := by
  have hreset := bounded_resetSums h.originals w.firstUnremovedElement
  have hcovers : w.firstUnremovedElement ≤ w.firstUnremovedElement + 0 := le_refl _
  unfold EncoderPacketWindow.generate
  dsimp only
  split
  · exact h
  split
  · split
    · exact h
    · exact ⟨h.originals, fun _ => hcovers⟩
  · next hrunning =>
      split
      · exact ⟨h.originals, fun hlt => absurd hlt (Nat.lt_irrefl _)⟩
      · exact ⟨h.originals, fun _ => h.sums (by omega)⟩

theorem Bounded.encode (h : w.Bounded m) : w.encode.2.Bounded m := h.trim.generate

theorem longest_le {sizes : List Nat} (h : ∀ bytes ∈ sizes, bytes ≤ m) : longest sizes ≤ m := by
  induction sizes with
  | nil => exact Nat.zero_le _
  | cons bytes sizes ih =>
      have hrest := ih fun b hb => h b (List.mem_cons_of_mem _ hb)
      exact max_le (h bytes List.mem_cons_self) hrest

/-- Counts of one byte leave a footer of six bytes at most. -/
theorem footerBytes_le_of_few {metadata : RecoveryMetadata} (hsum : metadata.sumCount ≤ 128)
    (hldpc : metadata.ldpcCount ≤ 127) : footerBytes metadata ≤ 6 := by
  rw [footerBytes_eq]
  rw [if_pos hldpc, if_pos (show metadata.sumCount - 1 ≤ 127 by omega)]
  repeat' split
  all_goals omega

/-- A packet that is not made from running sums has a short footer. -/
theorem Bounded.generate_of_not_sums (h : w.Bounded m) (hnot : ¬w.MadeFromSums) :
    w.generate.1.bytes + footerBytes w.generate.1.metadata ≤ m + 6 := by
  have hdrop : longest (w.originals.drop w.firstUnremovedElement) ≤ m :=
    longest_le fun bytes hb => h.originals bytes (List.mem_of_mem_drop hb)
  rcases EncoderPacketWindow.generate_of_not_sums hnot with ⟨-, hgenerate⟩ | ⟨hgenerate, hfew⟩
  · rw [hgenerate]
    refine Nat.add_le_add ?_ (footerBytes_le_of_few (by decide : 1 ≤ 128) (by decide : 1 ≤ 127))
    show w.originals.getD w.firstUnremovedElement 0 ≤ m
    rw [List.getD_eq_getElem?_getD]
    cases hget : w.originals[w.firstUnremovedElement]? with
    | none => exact Nat.zero_le _
    | some bytes => exact h.originals bytes (List.mem_of_getElem? hget)
  · have hcount : w.getUnacknowledgedCount ≤ siameseCauchyThreshold := by
      rcases hfew with hfew | ⟨hrunning, hfew⟩
      · exact hfew
      · -- the running sums cover what is unacknowledged
        have hsums := h.sums
        unfold SumsStale at hrunning
        unfold newSumCountUB at hfew
        unfold getUnacknowledgedCount
        omega
    unfold siameseCauchyThreshold at hcount
    rw [hgenerate]
    refine Nat.add_le_add hdrop (footerBytes_le_of_few ?_ ?_)
    · show w.getUnacknowledgedCount ≤ 128
      omega
    · show w.getUnacknowledgedCount ≤ 127
      omega

/-- A recovery packet fits exactly if one from the running sums does. -/
theorem Bounded.encode_fits_iff (h : w.Bounded m) {limit : Nat} (hlimit : m + 6 ≤ limit) :
    w.encode.1.bytes + footerBytes w.encode.1.metadata ≤ limit ↔ w.SumsFit limit := by
  show w.trim.generate.1.bytes + footerBytes w.trim.generate.1.metadata ≤ limit ↔ _
  unfold SumsFit
  by_cases hsums : w.trim.MadeFromSums
  · have hlongest : w.trim.withSums.longestPacket = w.trim.longestPacket := by
      unfold withSums
      split <;> rfl
    rw [generate_of_sums hsums, ← hlongest]
    exact ⟨fun hle _ => hle, fun hle => hle hsums⟩
  · have hle := h.trim.generate_of_not_sums hsums
    exact ⟨fun _ hmade => absurd hmade hsums, fun _ => hle.trans hlimit⟩

end EncoderPacketWindow

theorem SiameseEncoder.bounded_acknowledge {s : SiameseEncoder} {m : Nat}
    (h : s.window.Bounded m) (num : Nat) (ranges : Bytes) :
    (s.acknowledge num ranges).window.Bounded m := by
  unfold acknowledge
  dsimp only
  split
  · exact h
  split
  · exact h
  · exact h.removeBefore num

theorem SiameseEncoder.packetBytes_le {data : Bytes} (h : data.length ≤ 0x3fff) :
    packetBytes data ≤ data.length + 2 := by
  have hlength : u32 data.length ≤ data.length := Nat.mod_le _ _
  have hprefix := serializeHeaderPacketLength_length_le (hlength.trans h)
  unfold packetBytes
  omega

/-- Packets of at most `m` bytes take two bytes more in the window. -/
theorem Siamese.Windowed.bounded {S : Siamese} {view : S.Encoder → SiameseEncoder}
    (h : S.Windowed view) {m : Nat} (hm : m ≤ 0x3fff) {added emitted : List Bytes}
    {e : S.Encoder} (hrun : S.EncoderRun added emitted e)
    (hshort : ∀ data ∈ added, data.length ≤ m) : (view e).window.Bounded (m + 2) := by
  induction hrun with
  | create =>
      rw [h.create]
      exact EncoderPacketWindow.bounded_init
  | @add added emitted e data _ hsuccess ih =>
      have hdata := hshort data (List.mem_append_right _ List.mem_cons_self)
      have hbytes := SiameseEncoder.packetBytes_le (hdata.trans hm)
      rw [(h.of_add hsuccess).2]
      exact (ih fun x hx => hshort x (List.mem_append_left _ hx)).add (by omega)
  | encode _ hsuccess ih =>
      rw [h.of_encode hsuccess]
      exact (ih hshort).encode
  | @ack added emitted e message _ ih =>
      by_cases hsuccess : (S.encoderAck e message).1 = .success
      · obtain ⟨num, ranges, -, hview, -⟩ := h.ack e message hsuccess
        rw [hview]
        exact SiameseEncoder.bounded_acknowledge (ih hshort) num ranges
      · rw [h.ack_refused e message hsuccess]
        exact ih hshort

end FecRelay
