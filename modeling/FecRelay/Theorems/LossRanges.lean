import FecRelay.Codec.Decoding
import FecRelay.Codec.LossRanges
import FecRelay.Codec.Receipt

/-!
# An ack says what is lost

Whatever packets a decoder's window was given, recovered and removed, the ack that is made
from it names the packet that is expected next, and the encoder reads the packets that are
lost from its ranges, in order and as far as the buffer went. If the last packet of the window
is there, the encoder reads one more: the packet after the window.
-/

namespace FecRelay

open FecRelay.Base

/-! ## Reading ranges -/

namespace LossIterator

variable {column : Nat → Nat}

/-- A range is never empty. -/
theorem decodeNextRange_lossCount {it it' : LossIterator} (h : it.decodeNextRange = some it') :
    it'.lossCount ≠ 0 := by
  unfold decodeNextRange at h
  split at h
  · cases h
  · split at h
    · cases h
    · split at h
      · cases h
      · cases h
        exact Nat.succ_ne_zero _

/-- When a range is over, the next one starts one column later. -/
theorem lossColumns_next (data : Bytes)
    (hcolumn : ∀ e, siamesePacketNumInc (column e) = column (e + 1)) (e n : Nat) :
    lossColumns n { data := data, lossColumn := column e } = readFrom (column (e + 1)) data n := by
  cases n with
  | zero =>
      unfold readFrom
      split <;> rfl
  | succ n =>
      rw [lossColumns, getNextLossColumn, readFrom, if_pos rfl, hcolumn]
      cases hdecode : decodeNextRange { data := data, lossColumn := column (e + 1) } with
      | none => rfl
      | some it =>
          show _ = lossColumns (n + 1) it
          rw [lossColumns, getNextLossColumn, if_neg (decodeNextRange_lossCount hdecode)]

/-- One range is read column by column, and then the next range. -/
theorem lossColumns_range (data : Bytes)
    (hcolumn : ∀ e, siamesePacketNumInc (column e) = column (e + 1)) (k e n : Nat) :
    lossColumns n { data := data, lossColumn := column e, lossCount := k } =
      ((List.range' e k).map column ++
        readFrom (column (e + k + 1)) data (n - k)).take n := by
  induction k generalizing e n with
  | zero =>
      rw [lossColumns_next data hcolumn]
      have hlength : ∀ (n : Nat) (it : LossIterator), (lossColumns n it).length ≤ n := by
        intro n
        induction n with
        | zero => simp [lossColumns]
        | succ n ih =>
            intro it
            rw [lossColumns]
            split
            · simp
            · simpa using ih _
      have hread : (readFrom (column (e + 1)) data n).length ≤ n := by
        unfold readFrom
        split
        · simp
        · exact hlength n _
      simpa using (List.take_of_length_le hread).symm
  | succ k ih =>
      cases n with
      | zero => simp [lossColumns]
      | succ n =>
          rw [lossColumns, getNextLossColumn, if_neg (Nat.succ_ne_zero k)]
          dsimp only
          rw [hcolumn, Nat.add_sub_cancel, ih, List.range'_succ, List.map_cons, List.cons_append,
            List.take_succ_cons, Nat.add_sub_add_right, Nat.add_right_comm e 1 k]
          rfl

end LossIterator

/-! ## Ranges of a window -/

namespace DecoderPacketWindow

variable {w : DecoderPacketWindow}

/-- The elements from `e` on that are lost. -/
def lostFrom (w : DecoderPacketWindow) (e : Nat) : List Nat :=
  (List.range' e (w.count - e)).filter fun e => !w.has e

theorem lostFrom_of_count_le (w : DecoderPacketWindow) {e : Nat} (h : w.count ≤ e) :
    w.lostFrom e = [] := by simp [lostFrom, Nat.sub_eq_zero_of_le h]

/-- Where some elements are there, the elements after them are looked at next. -/
theorem lostFrom_skip (w : DecoderPacketWindow) {a b : Nat} (hab : a ≤ b)
    (hhas : ∀ e, a ≤ e → e < b → w.has e = true) (hb : b ≤ w.count) :
    w.lostFrom a = w.lostFrom b := by
  have hsplit : w.count - a = (b - a) + (w.count - b) := by omega
  have hnone : (List.range' a (b - a)).filter (fun e => !w.has e) = [] := by
    rw [List.filter_eq_nil_iff]
    intro e he
    have he := List.mem_range'_1.mp he
    simp [hhas e he.1 (by omega)]
  rw [lostFrom, hsplit, ← List.range'_append_1, List.filter_append, hnone, List.nil_append,
    Nat.add_sub_cancel' hab]
  rfl

theorem lostFrom_range (w : DecoderPacketWindow) {a b : Nat} (hab : a ≤ b)
    (hlost : ∀ e, a ≤ e → e < b → w.has e = false) (hb : b ≤ w.count) :
    w.lostFrom a = List.range' a (b - a) ++ w.lostFrom b := by
  have hsplit : w.count - a = (b - a) + (w.count - b) := by omega
  have hall : (List.range' a (b - a)).filter (fun e => !w.has e) = List.range' a (b - a) := by
    rw [List.filter_eq_self]
    intro e he
    have he := List.mem_range'_1.mp he
    simp [hlost e he.1 (by omega)]
  rw [lostFrom, hsplit, ← List.range'_append_1, List.filter_append, hall,
    Nat.add_sub_cancel' hab]
  rfl

/-- Nothing is lost after an element. -/
theorem Coherent.lostFrom_none (h : w.Coherent) {e : Nat}
    (he : w.count ≤ w.findNextLostElement e) : w.lostFrom e = [] := by
  obtain ⟨hle, hbefore, -⟩ := h.findNextLostElement_spec e
  rcases Nat.lt_or_ge w.count e with hlt | hge
  · exact w.lostFrom_of_count_le hlt.le
  · rw [w.lostFrom_skip hge (fun e' he' hlt => by simpa using hbefore e' he' (by omega)) le_rfl]
    exact w.lostFrom_of_count_le le_rfl

/-- The first range of elements that are lost, and the rest after the element that ends it. -/
theorem Coherent.lostFrom_some (h : w.Coherent) {e : Nat}
    (he : w.findNextLostElement e < w.count) :
    e ≤ w.findNextLostElement e ∧
      w.findNextLostElement e < w.findNextGotElement (w.findNextLostElement e + 1) ∧
      w.findNextGotElement (w.findNextLostElement e + 1) ≤ w.count ∧
      w.lostFrom e = List.range' (w.findNextLostElement e)
          (w.findNextGotElement (w.findNextLostElement e + 1) - w.findNextLostElement e) ++
        w.lostFrom (w.findNextGotElement (w.findNextLostElement e + 1) + 1) := by
  obtain ⟨-, hbefore, hat⟩ := h.findNextLostElement_spec e
  obtain ⟨hge, hlost⟩ := hat he
  generalize w.findNextLostElement e = s at he hbefore hge hlost
  obtain ⟨hle, hrange, hend⟩ := h.findNextGotElement_spec (s + 1)
  generalize w.findNextGotElement (s + 1) = t at hle hrange hend
  have hst : s < t := by
    rcases Nat.lt_or_ge t w.count with hlt | hge'
    · exact (hend hlt).1
    · omega
  refine ⟨hge, hst, hle, ?_⟩
  have hall : ∀ e', s ≤ e' → e' < t → w.has e' = false := by
    intro e' he' hlt
    rcases Nat.lt_or_eq_of_le he' with hgt | rfl
    · simpa using hrange e' hgt hlt
    · exact hlost
  rw [w.lostFrom_skip hge (fun e' he' hlt => by simpa using hbefore e' he' hlt) he.le,
    w.lostFrom_range hst.le hall hle]
  congr 1
  rcases Nat.lt_or_ge t w.count with hlt | hge'
  · refine w.lostFrom_skip (Nat.le_succ t) (fun e' he' hlt' => ?_) hlt
    obtain rfl : e' = t := by omega
    exact (hend hlt).2
  · rw [w.lostFrom_of_count_le hge', w.lostFrom_of_count_le (by omega)]

theorem elementToColumn_add (w : DecoderPacketWindow) (e k : Nat) :
    (w.elementToColumn e + k) % siamesePacketNumCount = w.elementToColumn (e + k) := by
  unfold elementToColumn
  rw [Nat.mod_add_mod, Nat.add_right_comm]

theorem siamesePacketNumInc_elementToColumn (w : DecoderPacketWindow) (e : Nat) :
    siamesePacketNumInc (w.elementToColumn e) = w.elementToColumn (e + 1) :=
  w.elementToColumn_add e 1

/-- A range at the front of what is read is read column by column. -/
theorem readFrom_range (w : DecoderPacketWindow) {e s t : Nat} (hes : e ≤ s) (hst : s < t)
    (ht : t ≤ siamesePacketNumCount) (rest : Bytes) (m : Nat) :
    LossIterator.readFrom (w.elementToColumn e)
        (serializeHeaderNackLossRange (s - e) (t - s - 1) ++ rest) m =
      ((List.range' s (t - s)).map w.elementToColumn ++
        LossIterator.readFrom (w.elementToColumn (t + 1)) rest (m - (t - s))).take m := by
  have hlength := serializeHeaderNackLossRange_length (s - e) (t - s - 1)
  have hnonempty : serializeHeaderNackLossRange (s - e) (t - s - 1) ++ rest ≠ [] := by
    intro hnil
    have hzero := congrArg List.length hnil
    rw [List.length_append, List.length_nil] at hzero
    omega
  have hroom : maxLossRangeFieldBytes ≤ (serializeHeaderNackLossRange (s - e) (t - s - 1) ++
      (rest ++ List.replicate paddingBytes 0)).length := by
    simp [maxLossRangeFieldBytes, paddingBytes]
    omega
  have hread := deserializeHeaderNackLossRange_serialize (by omega : s - e < _)
    (by omega : t - s - 1 < _) hroom
  have hcolumn : (w.elementToColumn e + (s - e)) % siamesePacketNumCount = w.elementToColumn s := by
    rw [w.elementToColumn_add, Nat.add_sub_cancel' hes]
  have hcount : t - s - 1 + 1 = t - s := by omega
  unfold LossIterator.readFrom LossIterator.decodeNextRange
  dsimp only
  rw [if_neg hnonempty, List.append_assoc, hread]
  dsimp only
  rw [if_neg (by rw [List.length_append]; omega), List.drop_left, hcolumn, hcount]
  dsimp only
  rw [LossIterator.lossColumns_range rest w.siamesePacketNumInc_elementToColumn,
    Nat.add_sub_cancel' hst.le]
  rfl

/-- What is read of the ranges of an ack. -/
structure Reads (w : DecoderPacketWindow) (e byteLimit : Nat) (ranges : Bytes) (read : List Nat) :
    Prop where
  fits : ranges.length ≤ byteLimit
  lost : read <+: w.lostFrom e ++ [w.count]
  /-- Only the end of the buffer cuts the ranges short. -/
  complete : ranges.length + maxLossRangeFieldBytes ≤ byteLimit → w.lostFrom e <+: read
  columns : ∀ m, LossIterator.readFrom (w.elementToColumn e) ranges m =
    (read.map w.elementToColumn).take m

theorem readFrom_nil (column m : Nat) : LossIterator.readFrom column [] m = [] := rfl

/-- **The encoder reads what the decoder lost.** The induction follows the loop, which writes
one range of elements and goes on after the element that ends it. -/
theorem Coherent.reads_ackLoop (h : w.Coherent) (hcount : w.count < siamesePacketNumCount)
    (n byteLimit e : Nat) (hn : byteLimit ≤ n) (he : e ≤ w.count + 1) :
    ∃ read, w.Reads e byteLimit (w.ackLoop n byteLimit e) read := by
  induction n generalizing byteLimit e with
  | zero =>
      refine ⟨[], Nat.zero_le _, List.nil_prefix, fun hroom => ?_,
        fun m => by simp [ackLoop, readFrom_nil]⟩
      unfold maxLossRangeFieldBytes at hroom
      omega
  | succ n ih =>
      unfold ackLoop
      by_cases hroom : byteLimit < maxLossRangeFieldBytes
      · rw [if_pos hroom]
        exact ⟨[], Nat.zero_le _, List.nil_prefix,
          fun hle => absurd hle (by simpa using hroom), fun m => by simp [readFrom_nil]⟩
      rw [if_neg hroom]
      dsimp only
      by_cases hlost : w.count ≤ w.findNextLostElement e
      · rw [if_pos hlost]
        have hnone := h.lostFrom_none hlost
        by_cases hend : e ≤ w.count
        · -- a range of one element that is not in the window yet
          rw [if_pos hend]
          have hlength := serializeHeaderNackLossRange_length (w.count - e) 0
          have hread := w.readFrom_range hend (Nat.lt_succ_self w.count) (by omega) []
          refine ⟨[w.count], by omega, ?_, fun _ => ?_, fun m => ?_⟩
          · rw [hnone]
            exact List.prefix_rfl
          · rw [hnone]
            exact List.nil_prefix
          · have hm := hread m
            rw [show w.count + 1 - w.count - 1 = 0 by omega, List.append_nil, readFrom_nil] at hm
            rw [hm]
            simp
        · rw [if_neg hend]
          refine ⟨[], Nat.zero_le _, List.nil_prefix, fun _ => ?_, fun m => by simp [readFrom_nil]⟩
          rw [hnone]
      · rw [if_neg hlost]
        obtain ⟨hes, hst, ht, hsplit⟩ :=
          h.lostFrom_some (by omega : w.findNextLostElement e < w.count)
        generalize w.findNextLostElement e = s at hes hst hsplit ht
        generalize w.findNextGotElement (s + 1) = t at hst hsplit ht
        have hlength := serializeHeaderNackLossRange_length (s - e) (t - s - 1)
        generalize hrange : serializeHeaderNackLossRange (s - e) (t - s - 1) = range at hlength
        obtain ⟨read, hread⟩ := ih (byteLimit - range.length) (t + 1) (by omega) (by omega)
        refine ⟨List.range' s (t - s) ++ read, ?_, ?_, fun hleft => ?_, fun m => ?_⟩
        · have hfits := hread.fits
          rw [List.length_append]
          omega
        · rw [hsplit, List.append_assoc]
          exact (List.prefix_append_right_inj _).mpr hread.lost
        · rw [hsplit]
          refine (List.prefix_append_right_inj _).mpr (hread.complete ?_)
          rw [List.length_append] at hleft
          omega
        · have hfirst := w.readFrom_range hes hst (by omega)
            (w.ackLoop n (byteLimit - range.length) (t + 1)) m
          rw [hrange] at hfirst
          rw [hfirst, hread.columns, List.map_append, List.take_append, List.take_append,
            List.take_take, List.length_map, List.length_range', min_self]

/-- Only a window that has lost nothing says nothing after the column that it expects. -/
theorem WellFormed.reads_ack (h : w.WellFormed) (hlt : w.count < siamesePacketNumCount)
    (hcount : w.count ≠ 0) (byteLimit : Nat) :
    ∃ ranges read, w.generateAcknowledgement byteLimit = (.success,
        serializeHeaderPacketNum (w.elementToColumn w.nextExpectedElement) ++ ranges) ∧
      w.Reads w.nextExpectedElement
        (byteLimit - (serializeHeaderPacketNum (w.elementToColumn w.nextExpectedElement)).length)
        ranges read := by
  unfold generateAcknowledgement
  rw [if_neg hcount]
  dsimp only
  by_cases hall : w.count ≤ w.nextExpectedElement
  · rw [if_pos hall]
    refine ⟨[], [], by rw [List.append_nil], Nat.zero_le _, List.nil_prefix, fun _ => ?_,
      fun m => by simp [readFrom_nil]⟩
    rw [w.lostFrom_of_count_le hall]
  · rw [if_neg hall]
    obtain ⟨read, hread⟩ := h.toCoherent.reads_ackLoop hlt
      (byteLimit - (serializeHeaderPacketNum (w.elementToColumn w.nextExpectedElement)).length)
      (byteLimit - (serializeHeaderPacketNum (w.elementToColumn w.nextExpectedElement)).length)
      w.nextExpectedElement le_rfl (by omega)
    exact ⟨_, read, rfl, hread⟩

end DecoderPacketWindow

/-! ## Questions to a window -/

namespace Receipt

variable {first : Nat} {s : Receipt}

theorem Represents.lost_iff (h : s.Represents first) (e : Nat) :
    s.window.has e = false ↔ s.base + e ∉ s.known := by
  rw [← h.has_iff, Bool.not_eq_true]

/-- **A window answers from its bits and counts what is so.** After any run, `RangeLostPackets`
counts the packets of a range that were not received, the searches find the first packet that
was not received or was, and `AddOriginal` takes a packet exactly if it was not received. -/
theorem answers {es : List Event} (h : Run Step (start first) es s) :
    (∀ a b, s.window.rangeLostPackets a b =
      (List.range' a (b - a)).countP fun e => decide (s.base + e ∉ s.known)) ∧
    (∀ e, CustomBitSet.FirstAt (fun e => s.base + e ∉ s.known) e s.window.count
      (s.window.findNextLostElement e)) ∧
    (∀ e, CustomBitSet.FirstAt (fun e => s.base + e ∈ s.known) e s.window.count
      (s.window.findNextGotElement e)) ∧
    ∀ num data, first ≤ num → s.Allowed (.original num data) →
      (s.window.addOriginal (num % siamesePacketNumCount) data).1 =
        if num ∈ s.known then .duplicateData else .success := by
  have hs := represents h
  have hcoherent := hs.wellFormed.toCoherent
  refine ⟨fun a b => ?_, fun e => ?_, fun e => ?_, fun num data hfirst hallowed => ?_⟩
  · rw [hcoherent.rangeLostPackets_spec, DecoderPacketWindow.lostIn]
    refine List.countP_congr fun e _ => ?_
    simp [← hs.lost_iff]
  · simpa only [hs.lost_iff] using hcoherent.findNextLostElement_spec e
  · simpa only [hs.has_iff] using hcoherent.findNextGotElement_spec e
  · rcases Nat.lt_or_ge num s.base with hold | hnew
    · rw [hs.addOriginal_old hallowed hold, if_pos (hs.before num hfirst hold)]
    · obtain ⟨helement, hforward⟩ := hs.element_original hallowed hnew
      obtain ⟨hresult, -⟩ := hs.wellFormed.addOriginal_spec helement hforward data
      have hknown := hs.has_iff (num - s.base)
      rw [Nat.add_sub_cancel' hnew] at hknown
      simp only [hresult, hknown]

/-- A packet that is given twice. -/
theorem answers_twice : ∃ s : Receipt, s.known = {7} ∧
    (s.window.addOriginal 7 [2]).1 = .duplicateData ∧ s.window.rangeLostPackets 0 8 = 7 := by
  have h : Run Step (start 0) [.original 7 [1]] _ :=
    .single ⟨⟨by decide, by decide, by decide⟩, rfl⟩
  obtain ⟨hcount, -, -, htwice⟩ := answers h
  refine ⟨_, rfl, (htwice 7 [2] (by decide) ⟨by decide, by decide, by decide⟩).trans ?_,
    (hcount 0 8).trans ?_⟩
  · decide +kernel
  · decide +kernel

end Receipt

/-! ## Acks of a run -/

namespace Receipt

variable {first : Nat} {s : Receipt}

theorem Represents.elementToColumn (h : s.Represents first) (e : Nat) :
    s.window.elementToColumn e = (s.base + e) % siamesePacketNumCount := by
  unfold DecoderPacketWindow.elementToColumn
  rw [h.columnStart, Nat.add_mod_mod, Nat.add_comm]

/-- What is missing comes after what is expected. -/
theorem Represents.missing_eq (h : s.Represents first) :
    s.missing = (s.window.lostFrom s.window.nextExpectedElement).map (s.base + ·) := by
  have hall : s.window.lostFrom 0 = s.window.lostFrom s.window.nextExpectedElement :=
    s.window.lostFrom_skip (Nat.zero_le _) (fun e _ hlt => h.wellFormed.before e hlt)
      h.wellFormed.expected_le
  rw [← hall, missing, DecoderPacketWindow.lostFrom, Nat.sub_zero]
  have hrange : List.range' s.base s.window.count =
      (List.range' 0 s.window.count).map (s.base + ·) := by
    rw [List.map_add_range', Nat.add_zero]
  rw [hrange, List.filter_map]
  congr 1
  refine List.filter_congr fun e _ => ?_
  rw [Function.comp_apply]
  have hiff := h.has_iff e
  cases hhas : s.window.has e with
  | false => simp [← hiff, hhas]
  | true => simp [← hiff, hhas]

/-- An ack that is made names the packet that is expected. -/
theorem Represents.ack_number (h : s.Represents first) {byteLimit : Nat} {message : Bytes}
    (hack : s.window.generateAcknowledgement byteLimit = (.success, message)) :
    ∃ ranges, deserializeHeaderPacketNum message =
      some (s.expected % siamesePacketNumCount, ranges) := by
  have hle := h.count_le
  have hlt : s.window.count < siamesePacketNumCount := by
    unfold siamesePacketNumCount at hle ⊢
    omega
  have hcount : s.window.count ≠ 0 := by
    intro hzero
    simp [DecoderPacketWindow.generateAcknowledgement, hzero] at hack
  obtain ⟨ranges, -, hmade, -⟩ := h.wellFormed.reads_ack hlt hcount byteLimit
  rw [hack] at hmade
  have hmessage : message = _ ++ ranges := congrArg Prod.snd hmade
  refine ⟨ranges, ?_⟩
  rw [hmessage, h.elementToColumn]
  exact deserializeHeaderPacketNum_serialize (Nat.mod_lt _ (by decide)) ranges

/-- **An ack is right about what was received.** After any run, the ack names the first packet
that the decoder does not have, of which it has all before. What the encoder reads of the
ranges after it, one column after another, is what is missing of the window, in order and as
far as the buffer goes, and nothing but the end of the buffer cuts it short. -/
theorem acknowledges {es : List Event} (h : Run Step (start first) es s)
    (hcount : s.window.count ≠ 0) {byteLimit : Nat} (hlimit : siameseAckMinBytes ≤ byteLimit) :
    (first ≤ s.expected ∧ s.expected ∉ s.known ∧
      ∀ num, first ≤ num → num < s.expected → num ∈ s.known) ∧
    ∃ message ranges read,
      s.window.generateAcknowledgement byteLimit = (.success, message) ∧
      message.length ≤ byteLimit ∧
      deserializeHeaderPacketNum message = some (s.expected % siamesePacketNumCount, ranges) ∧
      (∀ m, LossIterator.readFrom (s.expected % siamesePacketNumCount) ranges m =
        (read.map (· % siamesePacketNumCount)).take m) ∧
      read <+: s.missing ++ [s.base + s.window.count] ∧
      (message.length + maxLossRangeFieldBytes ≤ byteLimit → s.missing <+: read) := by
  have hs := represents h
  have hle := hs.count_le
  have hlt : s.window.count < siamesePacketNumCount := by
    unfold siamesePacketNumCount at hle ⊢
    omega
  obtain ⟨ranges, read, hack, hread⟩ := hs.wellFormed.reads_ack hlt hcount byteLimit
  have hcolumn : s.window.elementToColumn s.window.nextExpectedElement =
      s.expected % siamesePacketNumCount := hs.elementToColumn _
  have hheader := serializeHeaderPacketNum_length_le (s.expected % siamesePacketNumCount)
  have hfits := hread.fits
  unfold siameseAckMinBytes at hlimit
  rw [hcolumn] at hack hfits
  refine ⟨hs.expected_spec, _, ranges, read.map (s.base + ·), hack, ?_, ?_, fun m => ?_, ?_,
    fun hroom => ?_⟩
  · rw [List.length_append]
    omega
  · exact deserializeHeaderPacketNum_serialize (Nat.mod_lt _ (by decide)) ranges
  · have hcolumns := hread.columns m
    rw [hcolumn] at hcolumns
    rw [hcolumns, List.map_map]
    congr 1
    exact List.map_congr_left fun e _ => hs.elementToColumn e
  · rw [hs.missing_eq]
    have hprefix := hread.lost.map (s.base + ·)
    rwa [List.map_append] at hprefix
  · rw [hs.missing_eq]
    refine (hread.complete ?_).map _
    rw [List.length_append] at hroom
    rw [hcolumn]
    omega

/-- Two packets are lost that are after one that is lost, past the last number. -/
theorem acknowledges_around : ∃ s : Receipt, s.missing = [4194304, 4194306, 4194307] ∧
    ∃ message ranges, s.window.generateAcknowledgement 16 = (.success, message) ∧
      deserializeHeaderPacketNum message = some (0, ranges) ∧
      LossIterator.readFrom 0 ranges 3 = [0, 2, 3] := by
  have h₁ : Run Step (start 4194302) [.original 4194302 [1]] _ :=
    .single ⟨⟨by decide, by decide, by decide⟩, rfl⟩
  have h₂ := h₁.snoc (e := Event.original 4194305 [2]) ⟨⟨by decide, by decide, by decide⟩, rfl⟩
  have h₃ := h₂.snoc (e := Event.original 4194303 [3]) ⟨⟨by decide, by decide, by decide⟩, rfl⟩
  have h₄ := h₃.snoc (e := Event.covers 4194308) ⟨show 4194308 ≤ _ by decide, rfl⟩
  generalize hs : next (next (next (next _ _) _) _) _ = s at h₄
  have hmissing : s.missing = [4194304, 4194306, 4194307] := by
    rw [← hs]
    decide +kernel
  have hlength : (s.window.generateAcknowledgement 16).2.length = 3 := by
    rw [← hs]
    decide +kernel
  have hexpected : s.expected % siamesePacketNumCount = 0 := by
    rw [← hs]
    decide +kernel
  have hcount : s.window.count ≠ 0 := by
    rw [← hs]
    decide +kernel
  obtain ⟨-, message, ranges, read, hack, -, hnum, hread, -, hall⟩ :=
    acknowledges h₄ hcount (by decide : siameseAckMinBytes ≤ 16)
  rw [hack] at hlength
  rw [hexpected] at hnum hread
  obtain ⟨rest, rfl⟩ := hall (by rw [hlength]; decide)
  refine ⟨s, hmissing, message, ranges, hack, hnum, ?_⟩
  rw [hread, hmissing]
  rfl

end Receipt

end FecRelay
