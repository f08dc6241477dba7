import FecRelay.Base.Cyclic
import FecRelay.Codec.Serializers

/-!
# The encoder's window of the stream codec

`EncoderPacketWindow` and what `Encoder` does to it, as far as it decides whether a
packet is accepted, what an ack drops, and which packets a recovery packet covers and
how long it is. The window keeps the sizes of the packets instead of their bytes, and
memory is assumed not to run out. A codec is `Windowed` if its encoder does as such a
window does; `Holds` relates a window to the numbers of packets that were ever added and
acknowledged, which unlike columns do not wrap.
-/

namespace FecRelay

open FecRelay.Base

/-- `SIAMESE_MAX_PACKETS` -/
def siameseMaxPackets : Nat := 16000

/-- `SIAMESE_MAX_PACKET_BYTES` -/
def siameseMaxPacketBytes : Nat := 536870911

/-- `kColumnLaneCount` -/
def columnLaneCount : Nat := 8

/-- `kSubwindowSize` -/
def subwindowSize : Nat := columnLaneCount * 8

/-- `kEncoderRemoveThreshold` -/
def encoderRemoveThreshold : Nat := 2 * subwindowSize

/-- `SIAMESE_CAUCHY_THRESHOLD` -/
def siameseCauchyThreshold : Nat := 64

/-- `SIAMESE_SUM_RESET_THRESHOLD` -/
def siameseSumResetThreshold : Nat := 32

/-! ## Window -/

structure EncoderPacketWindow where
  nextColumn : Nat := 0
  columnStart : Nat := 0
  /-- the `Buffer.Bytes` of the elements, of which there are `Count` -/
  originals : List Nat := []
  firstUnremovedElement : Nat := 0
  longestPacket : Nat := 0
  sumStartElement : Nat := 0
  sumEndElement : Nat := 0
  sumColumnStart : Nat := 0
  sumErasedCount : Nat := 0
  deriving DecidableEq, Repr

/-- What a recovery packet consists of: the bytes in front of the footer, and the footer. -/
structure Recovery where
  bytes : Nat
  metadata : RecoveryMetadata
  deriving DecidableEq, Repr

namespace EncoderPacketWindow

/-- `Count` -/
def count (w : EncoderPacketWindow) : Nat := w.originals.length

def getRemainingSlots (w : EncoderPacketWindow) : Nat := siameseMaxPackets - w.count

def getUnacknowledgedCount (w : EncoderPacketWindow) : Nat := w.count - w.firstUnremovedElement

def columnToElement (w : EncoderPacketWindow) (column : Nat) : Nat :=
  Cyclic.distance siamesePacketNumCount column w.columnStart

def elementToColumn (w : EncoderPacketWindow) (element : Nat) : Nat :=
  (element + w.columnStart) % siamesePacketNumCount

/-- The greatest of some sizes. -/
def longest (sizes : List Nat) : Nat := sizes.foldr max 0

/-- `StartNewWindow(column)`: elements are skipped up to the place of the column's lane.
The packet that starts the window is not among `originals` yet. -/
def startNewWindow (w : EncoderPacketWindow) (column : Nat) : EncoderPacketWindow :=
  let element := column % columnLaneCount
  { w with
    columnStart := column - element
    originals := List.replicate element 0
    firstUnremovedElement := element
    longestPacket := 0
    sumStartElement := element
    sumEndElement := element }

/-- `Add(packet)` of a packet that takes `bytes`, when there are slots left. -/
def add (w : EncoderPacketWindow) (bytes : Nat) : EncoderPacketWindow :=
  let w := if w.count = 0 then w.startNewWindow w.nextColumn else w
  { w with
    nextColumn := siamesePacketNumInc w.nextColumn
    originals := w.originals ++ [bytes]
    longestPacket := max w.longestPacket bytes }

def removeBefore (w : EncoderPacketWindow) (firstKeptColumn : Nat) : EncoderPacketWindow :=
  let firstKeptElement := w.columnToElement firstKeptColumn
  if w.count ≤ firstKeptElement then
    if Cyclic.backwards siamesePacketNumCount firstKeptElement then w
    else { w with originals := [] }
  else { w with firstUnremovedElement := max w.firstUnremovedElement firstKeptElement }

def resetSums (w : EncoderPacketWindow) (elementStart : Nat) : EncoderPacketWindow :=
  { w with
    sumStartElement := elementStart
    sumEndElement := elementStart
    sumColumnStart := w.elementToColumn elementStart
    sumErasedCount := 0 }

def removeElements (w : EncoderPacketWindow) : EncoderPacketWindow :=
  let removed := w.firstUnremovedElement / subwindowSize * subwindowSize
  let rolled :=
    if w.sumStartElement < w.sumEndElement then
      { w with
        sumStartElement := w.sumStartElement - removed
        sumEndElement := w.sumEndElement - removed
        sumErasedCount := w.sumErasedCount + (removed - w.sumStartElement) }
    else w
  let kept := { rolled with
    columnStart := w.elementToColumn removed
    originals := w.originals.drop removed
    firstUnremovedElement := w.firstUnremovedElement - removed
    longestPacket := longest (w.originals.drop w.firstUnremovedElement) }
  if kept.sumEndElement ≤ kept.sumStartElement then kept.resetSums kept.firstUnremovedElement
  else kept

/-- Elements that are no longer needed go once there are enough of them. -/
def trim (w : EncoderPacketWindow) : EncoderPacketWindow :=
  if encoderRemoveThreshold ≤ w.firstUnremovedElement then w.removeElements else w

/-- `GenerateSinglePacket` -/
def generateSinglePacket (w : EncoderPacketWindow) : Recovery where
  bytes := w.originals.getD w.firstUnremovedElement 0
  metadata := {
    sumCount := 1
    ldpcCount := 1
    columnStart := w.elementToColumn w.firstUnremovedElement }

/-- `GenerateCauchyPacket` -/
def generateCauchyPacket (w : EncoderPacketWindow) : Recovery where
  bytes := longest (w.originals.drop w.firstUnremovedElement)
  metadata := {
    sumCount := w.getUnacknowledgedCount
    ldpcCount := w.getUnacknowledgedCount
    columnStart := w.elementToColumn w.firstUnremovedElement }

/-- The end of `Encode`, for a packet that is made from running sums. -/
def generateSumPacket (w : EncoderPacketWindow) : Recovery × EncoderPacketWindow :=
  ({ bytes := w.longestPacket
     metadata := {
       sumCount := w.count - w.sumStartElement + w.sumErasedCount
       ldpcCount := w.getUnacknowledgedCount
       columnStart := w.sumColumnStart } },
    { w with sumEndElement := w.count })

/-- `Encode(packet)` once the window was trimmed. -/
def generate (w : EncoderPacketWindow) : Recovery × EncoderPacketWindow :=
  let unacknowledgedCount := w.getUnacknowledgedCount
  let newSumCountUB := w.count + w.sumErasedCount - w.sumStartElement
  if unacknowledgedCount = 1 then (w.generateSinglePacket, w)
  else if w.sumEndElement ≤ w.sumStartElement ∨ siameseMaxPackets ≤ newSumCountUB then
    if unacknowledgedCount ≤ siameseCauchyThreshold then (w.generateCauchyPacket, w)
    else (w.resetSums w.firstUnremovedElement).generateSumPacket
  else if unacknowledgedCount ≤ siameseSumResetThreshold ∨
      newSumCountUB ≤ siameseCauchyThreshold then
    (w.generateCauchyPacket, { w with sumEndElement := w.sumStartElement })
  else w.generateSumPacket

/-- `Encode(packet)` of a window that is not empty. -/
def encode (w : EncoderPacketWindow) : Recovery × EncoderPacketWindow := w.trim.generate

end EncoderPacketWindow

/-! ## Encoder -/

/-- `EncoderAcknowledgementState` -/
structure EncoderAcknowledgementState where
  nextColumnExpected : Nat := 0
  /-- the loss ranges that came last, if any came so far -/
  data : Option Bytes := none
  dataBytes : Nat := 0
  deriving DecidableEq, Repr

/-- The same loss ranges came the last time. -/
def EncoderAcknowledgementState.repeats (a : EncoderAcknowledgementState) (ranges : Bytes) :
    Bool :=
  match a.data with
  | none => false
  | some data => decide (ranges.length = a.dataBytes) && decide (ranges = data.take ranges.length)

/-- `siamese::Encoder` -/
structure SiameseEncoder where
  window : EncoderPacketWindow := {}
  ack : EncoderAcknowledgementState := {}
  deriving DecidableEq, Repr

namespace SiameseEncoder

/-- `DataBytes` is in the range of `siamese_encoder_add`. -/
def Acceptable (data : Bytes) : Prop :=
  0 < u32 data.length ∧ u32 data.length ≤ siameseMaxPacketBytes

instance (data : Bytes) : Decidable (Acceptable data) :=
  inferInstanceAs (Decidable (_ ∧ _))

/-- The bytes a packet takes in the window: its own after those of its length. -/
def packetBytes (data : Bytes) : Nat :=
  (serializeHeaderPacketLength (u32 data.length)).length + u32 data.length

/-- `siamese_encoder_add` -/
def add (s : SiameseEncoder) (data : Bytes) : SiameseResult × Nat × SiameseEncoder :=
  if ¬Acceptable data then (.invalidInput, 0, s)
  else if s.window.getRemainingSlots = 0 then (.maxPacketsReached, 0, s)
  else (.success, s.window.nextColumn, { s with window := s.window.add (packetBytes data) })

/-- `Acknowledge` of a message that says which column is expected next and has well-formed
loss ranges. -/
def acknowledge (s : SiameseEncoder) (nextColumnExpected : Nat) (ranges : Bytes) :
    SiameseEncoder :=
  let columnDelta :=
    Cyclic.distance siamesePacketNumCount nextColumnExpected s.ack.nextColumnExpected
  if Cyclic.backwards siamesePacketNumCount columnDelta then s
  else if s.ack.nextColumnExpected = nextColumnExpected ∧ s.ack.repeats ranges = true then s
  else {
    window := s.window.removeBefore nextColumnExpected
    ack := {
      nextColumnExpected := nextColumnExpected
      data := if ranges = [] then s.ack.data else some ranges
      dataBytes := ranges.length } }

/-- `Encode`, unless the window is empty. -/
def encode (s : SiameseEncoder) : Recovery × SiameseEncoder :=
  (s.window.encode.1, { s with window := s.window.encode.2 })

end SiameseEncoder

/-- The encoders of the codec do as the encoders do that `view` makes of them. -/
structure Siamese.Windowed (S : Siamese) (view : S.Encoder → SiameseEncoder) : Prop where
  create : view S.encoderCreate = {}
  add : ∀ e data, ((S.encoderAdd e data).1, (S.encoderAdd e data).2.1,
    view (S.encoderAdd e data).2.2) = (view e).add data
  encode_empty : ∀ e, (view e).window.count = 0 →
    (S.encode e).1 = .needMoreData ∧ view (S.encode e).2.2 = view e
  encode : ∀ e, (view e).window.count ≠ 0 → (S.encode e).1 = .success ∧
    view (S.encode e).2.2 = (view e).encode.2 ∧
    ∃ body row, body.length = (view e).encode.1.bytes ∧
      (S.encode e).2.1 = body ++ serializeFooterRecoveryMetadata (view e).encode.1.metadata row
  ack : ∀ e message, (S.encoderAck e message).1 = .success →
    ∃ num ranges, deserializeHeaderPacketNum message = some (num, ranges) ∧
      view (S.encoderAck e message).2.2 = (view e).acknowledge num ranges ∧
      (S.encoderAck e message).2.1 = ((view e).acknowledge num ranges).ack.nextColumnExpected
  ack_refused : ∀ e message, (S.encoderAck e message).1 ≠ .success →
    (view (S.encoderAck e message).2.2).window = (view e).window

/-! ## What a window holds -/

namespace EncoderPacketWindow

/-- The window of an encoder that was given `n` packets, of which the first `a` were
acknowledged. Element 0 is packet number `base` of them. -/
structure Holds (n a : Nat) (w : EncoderPacketWindow) : Prop where
  nextColumn : w.nextColumn = n % siamesePacketNumCount
  count_le : w.count ≤ siameseMaxPackets
  empty : w.count = 0 → a = n
  elements : w.count ≠ 0 → ∃ base, base + w.count = n ∧
    w.columnStart = base % siamesePacketNumCount ∧
    base + w.firstUnremovedElement = a ∧ w.firstUnremovedElement < w.count

variable {n a : Nat} {w : EncoderPacketWindow}

theorem holds_init : ({} : EncoderPacketWindow).Holds 0 0 where
  nextColumn := rfl
  count_le := Nat.zero_le _
  empty _ := rfl
  elements h := absurd rfl h

theorem Holds.acked_le (h : w.Holds n a) : a ≤ n := by
  by_cases hcount : w.count = 0
  · exact (h.empty hcount).le
  · obtain ⟨base, hn, -, ha, hlt⟩ := h.elements hcount
    omega

/-- What is unacknowledged of the window is what is unacknowledged at all. -/
theorem Holds.unacknowledged (h : w.Holds n a) : w.getUnacknowledgedCount = n - a := by
  unfold getUnacknowledgedCount
  by_cases hcount : w.count = 0
  · have := h.empty hcount
    omega
  · obtain ⟨base, hn, -, ha, hlt⟩ := h.elements hcount
    omega

theorem Holds.count_eq_zero_iff (h : w.Holds n a) : w.count = 0 ↔ a = n := by
  refine ⟨h.empty, fun ha => ?_⟩
  by_contra hcount
  obtain ⟨base, hn, -, hbase, hlt⟩ := h.elements hcount
  omega

/-- A window is at the numbers it is at whatever becomes of its sums. -/
theorem Holds.of_eq {w' : EncoderPacketWindow} (h : w.Holds n a)
    (hnext : w'.nextColumn = w.nextColumn) (hstart : w'.columnStart = w.columnStart)
    (horiginals : w'.originals = w.originals)
    (hfirst : w'.firstUnremovedElement = w.firstUnremovedElement) : w'.Holds n a := by
  have hcount : w'.count = w.count := congrArg List.length horiginals
  refine ⟨hnext.trans h.nextColumn, hcount ▸ h.count_le, ?_, ?_⟩
  · rw [hcount]
    exact h.empty
  · rw [hcount, hstart, hfirst]
    exact h.elements

@[simp] theorem count_add (w : EncoderPacketWindow) (bytes : Nat) :
    (w.add bytes).count = if w.count = 0 then w.nextColumn % columnLaneCount + 1
      else w.count + 1 := by
  unfold add count
  by_cases hcount : w.originals.length = 0
  · simp [hcount, startNewWindow]
  · simp [hcount]

@[simp] theorem nextColumn_add (w : EncoderPacketWindow) (bytes : Nat) :
    (w.add bytes).nextColumn = siamesePacketNumInc w.nextColumn := by
  unfold add
  by_cases hcount : w.count = 0 <;> simp [hcount, startNewWindow]

theorem Holds.add (h : w.Holds n a) (hroom : w.count < siameseMaxPackets) (bytes : Nat) :
    (w.add bytes).Holds (n + 1) a := by
  have hnext : (w.add bytes).nextColumn = (n + 1) % siamesePacketNumCount := by
    rw [nextColumn_add, h.nextColumn, siamesePacketNumInc, Nat.mod_add_mod]
  have hnum := h.nextColumn
  unfold siamesePacketNumCount at hnum
  refine ⟨hnext, ?_, ?_, ?_⟩
  · rw [count_add]
    unfold siameseMaxPackets at hroom ⊢
    unfold columnLaneCount
    split <;> omega
  · rw [count_add]
    intro hzero
    split at hzero <;> omega
  intro _
  by_cases hcount : w.count = 0
  · -- a new window starts at the lane of the packet
    have hn := h.empty hcount
    refine ⟨n - n % 8, ?_, ?_, ?_, ?_⟩
    · rw [count_add, if_pos hcount]
      unfold columnLaneCount
      omega
    · have hstart : (w.add bytes).columnStart =
          w.nextColumn - w.nextColumn % columnLaneCount := by
        simp [EncoderPacketWindow.add, hcount, startNewWindow]
      rw [hstart]
      unfold columnLaneCount siamesePacketNumCount
      omega
    · have hfirst : (w.add bytes).firstUnremovedElement = w.nextColumn % columnLaneCount := by
        simp [EncoderPacketWindow.add, hcount, startNewWindow]
      rw [hfirst]
      unfold columnLaneCount
      omega
    · have hfirst : (w.add bytes).firstUnremovedElement = w.nextColumn % columnLaneCount := by
        simp [EncoderPacketWindow.add, hcount, startNewWindow]
      rw [hfirst, count_add, if_pos hcount]
      omega
  · obtain ⟨base, hn, hstart, ha, hlt⟩ := h.elements hcount
    have hsame : (w.add bytes).columnStart = w.columnStart ∧
        (w.add bytes).firstUnremovedElement = w.firstUnremovedElement := by
      simp [EncoderPacketWindow.add, hcount]
    rw [hsame.1, hsame.2, count_add, if_neg hcount]
    exact ⟨base, by omega, hstart, ha, by omega⟩

/-- A column of the window is at the element it is named after. -/
theorem columnToElement_of_near {base e : Nat} (hstart : w.columnStart = base % siamesePacketNumCount)
    (hle : base ≤ e) (hnear : e - base < siamesePacketNumCount) :
    w.columnToElement (e % siamesePacketNumCount) = e - base := by
  unfold columnToElement
  rw [hstart]
  exact Cyclic.distance_of_near hle hnear

/-- Everything before packet `e` is acknowledged. -/
theorem Holds.removeBefore (h : w.Holds n a) {e : Nat} (ha : a ≤ e) (he : e ≤ n) :
    (w.removeBefore (e % siamesePacketNumCount)).Holds n e := by
  by_cases hcount : w.count = 0
  · -- nothing is left in any case
    obtain rfl : e = n := by
      have := h.empty hcount
      omega
    have hnil : w.originals = [] := List.eq_nil_of_length_eq_zero hcount
    have hkept : (w.removeBefore (e % siamesePacketNumCount)).originals = [] ∧
        (w.removeBefore (e % siamesePacketNumCount)).nextColumn = w.nextColumn := by
      unfold EncoderPacketWindow.removeBefore
      dsimp only
      rw [if_pos (by omega)]
      split <;> simp [hnil]
    have hzero : (w.removeBefore (e % siamesePacketNumCount)).count = 0 := by
      simp [count, hkept.1]
    exact ⟨hkept.2.trans h.nextColumn, by omega, fun _ => rfl, fun hne => absurd hzero hne⟩
  obtain ⟨base, hn, hstart, hbase, hlt⟩ := h.elements hcount
  have hle := h.count_le
  have hfits : siameseMaxPackets < siamesePacketNumCount / 2 := by
    unfold siameseMaxPackets siamesePacketNumCount
    norm_num
  have helement : w.columnToElement (e % siamesePacketNumCount) = e - base :=
    columnToElement_of_near hstart (by omega) (by omega)
  unfold EncoderPacketWindow.removeBefore
  dsimp only
  rw [helement]
  by_cases hall : w.count ≤ e - base
  · obtain rfl : e = n := by omega
    have hforward : ¬Cyclic.backwards siamesePacketNumCount (e - base) = true := by
      unfold Cyclic.backwards
      rw [decide_eq_true_iff]
      omega
    rw [if_pos hall, if_neg hforward]
    exact ⟨h.nextColumn, Nat.zero_le _, fun _ => rfl, fun hne => absurd rfl hne⟩
  · rw [if_neg hall]
    refine ⟨h.nextColumn, h.count_le, fun hzero => absurd hzero hcount, fun _ => ?_⟩
    have hmax : max w.firstUnremovedElement (e - base) = e - base := max_eq_right (by omega)
    refine ⟨base, hn, hstart, ?_, ?_⟩
    · show base + max w.firstUnremovedElement (e - base) = e
      omega
    · show max w.firstUnremovedElement (e - base) < w.count
      omega

/-! ### Recovery packets leave the numbers alone -/

theorem removeElements_fields (w : EncoderPacketWindow) :
    w.removeElements.nextColumn = w.nextColumn ∧
    w.removeElements.columnStart =
      w.elementToColumn (w.firstUnremovedElement / subwindowSize * subwindowSize) ∧
    w.removeElements.originals =
      w.originals.drop (w.firstUnremovedElement / subwindowSize * subwindowSize) ∧
    w.removeElements.firstUnremovedElement =
      w.firstUnremovedElement - w.firstUnremovedElement / subwindowSize * subwindowSize := by
  unfold removeElements
  by_cases hsums : w.sumStartElement < w.sumEndElement
  · simp only [hsums, if_true]
    split <;> simp [resetSums]
  · simp only [hsums, if_false]
    split <;> simp [resetSums]

theorem generate_fields (w : EncoderPacketWindow) :
    w.generate.2.nextColumn = w.nextColumn ∧ w.generate.2.columnStart = w.columnStart ∧
    w.generate.2.originals = w.originals ∧
    w.generate.2.firstUnremovedElement = w.firstUnremovedElement := by
  unfold generate
  dsimp only
  split
  · simp
  split
  · split <;> simp [generateSumPacket, resetSums]
  · split <;> simp [generateSumPacket]

theorem nextColumn_encode (w : EncoderPacketWindow) : w.encode.2.nextColumn = w.nextColumn := by
  obtain ⟨hnext, -⟩ := w.trim.generate_fields
  show w.trim.generate.2.nextColumn = w.nextColumn
  rw [hnext]
  unfold trim
  split
  · exact w.removeElements_fields.1
  · rfl

theorem Holds.trim (h : w.Holds n a) : w.trim.Holds n a := by
  unfold EncoderPacketWindow.trim
  split
  · obtain ⟨hnext, hstart, horiginals, hfirst⟩ := w.removeElements_fields
    have hle := Nat.div_mul_le_self w.firstUnremovedElement subwindowSize
    have hcount : w.removeElements.count =
        w.count - w.firstUnremovedElement / subwindowSize * subwindowSize := by
      unfold count
      rw [horiginals, List.length_drop]
    have hle' := h.count_le
    refine ⟨hnext.trans h.nextColumn, by omega, ?_, ?_⟩
    · intro hzero
      by_cases hempty : w.count = 0
      · exact h.empty hempty
      · obtain ⟨base, hn, -, ha, hlt⟩ := h.elements hempty
        omega
    · intro hne
      obtain ⟨base, hn, hbase, ha, hlt⟩ := h.elements (by omega)
      refine ⟨base + w.firstUnremovedElement / subwindowSize * subwindowSize, by omega, ?_,
        by omega, by omega⟩
      rw [hstart, elementToColumn, hbase, Nat.add_mod_mod, Nat.add_comm]
  · exact h

theorem Holds.encode (h : w.Holds n a) : w.encode.2.Holds n a := by
  obtain ⟨hnext, hstart, horiginals, hfirst⟩ := w.trim.generate_fields
  exact h.trim.of_eq hnext hstart horiginals hfirst

end EncoderPacketWindow

/-- The encoder was given `n` packets, of which its acks say that the first `a` arrived. -/
structure SiameseEncoder.Holds (n a : Nat) (s : SiameseEncoder) : Prop where
  window : s.window.Holds n a
  expects : s.ack.nextColumnExpected = a % siamesePacketNumCount

namespace SiameseEncoder

variable {n a : Nat} {s : SiameseEncoder}

theorem holds_init : ({} : SiameseEncoder).Holds 0 0 where
  window := EncoderPacketWindow.holds_init
  expects := rfl

/-- An ack for all packets before packet `e` counts if it is not older than the latest,
as long as it is not so old that its number came around again. -/
theorem Holds.acknowledge (h : s.Holds n a) {e : Nat} (he : e ≤ n)
    (hrecent : a < e + siamesePacketNumCount / 2) (ranges : Bytes) :
    (s.acknowledge (e % siamesePacketNumCount) ranges).Holds n (max a e) := by
  have hunacked : n - a ≤ siameseMaxPackets := by
    rw [← h.window.unacknowledged]
    exact le_trans (Nat.sub_le _ _) h.window.count_le
  have hfits : siameseMaxPackets < siamesePacketNumCount / 2 := by
    unfold siameseMaxPackets siamesePacketNumCount
    norm_num
  have hacked := h.window.acked_le
  have hbackwards := Cyclic.backwards_iff (p := siamesePacketNumCount) (a := e) (b := a)
    ⟨2 ^ 21, rfl⟩ (by omega) hrecent
  unfold SiameseEncoder.acknowledge
  dsimp only
  rw [h.expects]
  split
  · next hold =>
      -- an older ack is ignored
      rw [max_eq_left (hbackwards.mp hold).le]
      exact h
  next hnew =>
  have hle : a ≤ e := not_lt.mp fun hlt => hnew (hbackwards.mpr hlt)
  rw [max_eq_right hle]
  split
  · next hsame =>
      -- the same ack once more
      obtain rfl : a = e := by
        have hcongr := Cyclic.distance_of_near (p := siamesePacketNumCount) hle (by omega)
        rw [hsame.1, Cyclic.distance_of_near (le_refl e) (by omega)] at hcongr
        omega
      exact h
  · exact ⟨h.window.removeBefore hle he, rfl⟩

theorem Holds.add (h : s.Holds n a) (hroom : s.window.count < siameseMaxPackets) (bytes : Nat) :
    ({ s with window := s.window.add bytes } : SiameseEncoder).Holds (n + 1) a :=
  ⟨h.window.add hroom bytes, h.expects⟩

theorem Holds.encode (h : s.Holds n a) : s.encode.2.Holds n a := ⟨h.window.encode, h.expects⟩

theorem add_success_iff {data : Bytes} :
    (s.add data).1 = .success ↔ Acceptable data ∧ s.window.count < siameseMaxPackets := by
  unfold add EncoderPacketWindow.getRemainingSlots
  by_cases hdata : Acceptable data
  · by_cases hroom : siameseMaxPackets - s.window.count = 0
    · have hfull : ¬s.window.count < siameseMaxPackets := by omega
      simp [hdata, hroom, hfull]
    · have hfree : s.window.count < siameseMaxPackets := by omega
      simp [hdata, hroom, hfree]
  · simp [hdata]

theorem add_of_success {data : Bytes} (h : (s.add data).1 = .success) : s.add data =
    (.success, s.window.nextColumn, { s with window := s.window.add (packetBytes data) }) := by
  obtain ⟨hdata, hroom⟩ := add_success_iff.mp h
  unfold add EncoderPacketWindow.getRemainingSlots
  rw [if_neg (not_not.mpr hdata), if_neg (by omega)]

/-- An ack changes nothing about what was added. -/
theorem acknowledge_nextColumn (num : Nat) (ranges : Bytes) :
    (s.acknowledge num ranges).window.nextColumn = s.window.nextColumn := by
  unfold acknowledge
  dsimp only
  split
  · rfl
  split
  · rfl
  unfold EncoderPacketWindow.removeBefore
  dsimp only
  split
  · split <;> rfl
  · rfl

end SiameseEncoder

/-! ## Codecs with a window -/

namespace Siamese.Windowed

variable {S : Siamese} {view : S.Encoder → SiameseEncoder}

theorem add_success_iff (h : S.Windowed view) {e : S.Encoder} {data : Bytes} :
    (S.encoderAdd e data).1 = .success ↔
      SiameseEncoder.Acceptable data ∧ (view e).window.count < siameseMaxPackets := by
  have hfirst : (S.encoderAdd e data).1 = ((view e).add data).1 := congrArg Prod.fst (h.add e data)
  rw [hfirst]
  exact SiameseEncoder.add_success_iff

/-- A packet that was accepted is at the end of the window. -/
theorem of_add (h : S.Windowed view) {e : S.Encoder} {data : Bytes}
    (hsuccess : (S.encoderAdd e data).1 = .success) :
    (S.encoderAdd e data).2.1 = (view e).window.nextColumn ∧
      view (S.encoderAdd e data).2.2 =
        { view e with window := (view e).window.add (SiameseEncoder.packetBytes data) } := by
  have hadd := h.add e data
  rw [SiameseEncoder.add_of_success (by rw [← hadd]; exact hsuccess)] at hadd
  exact ⟨congrArg (·.2.1) hadd, congrArg (·.2.2) hadd⟩

theorem encode_success_iff (h : S.Windowed view) {e : S.Encoder} :
    (S.encode e).1 = .success ↔ (view e).window.count ≠ 0 := by
  constructor
  · intro hsuccess hempty
    rw [(h.encode_empty e hempty).1] at hsuccess
    cases hsuccess
  · exact fun hcount => (h.encode e hcount).1

theorem of_encode (h : S.Windowed view) {e : S.Encoder} (hsuccess : (S.encode e).1 = .success) :
    view (S.encode e).2.2 = (view e).encode.2 :=
  (h.encode e (h.encode_success_iff.mp hsuccess)).2.1

/-- The next packet's number is the number of packets so far, modulo the period. -/
theorem nextColumn_eq (h : S.Windowed view) {added emitted : List Bytes} {e : S.Encoder}
    (hrun : S.EncoderRun added emitted e) :
    (view e).window.nextColumn = added.length % siamesePacketNumCount := by
  induction hrun with
  | create =>
      rw [h.create]
      rfl
  | @add added emitted e data _ hsuccess ih =>
      rw [(h.of_add hsuccess).2, List.length_append, List.length_singleton]
      show ((view e).window.add (SiameseEncoder.packetBytes data)).nextColumn = _
      rw [EncoderPacketWindow.nextColumn_add, ih, siamesePacketNumInc, Nat.mod_add_mod]
  | @encode added emitted e _ hsuccess ih =>
      rw [h.of_encode hsuccess, ← ih]
      exact (view e).window.nextColumn_encode
  | @ack added emitted e message _ ih =>
      by_cases hsuccess : (S.encoderAck e message).1 = .success
      · obtain ⟨num, ranges, -, hview, -⟩ := h.ack e message hsuccess
        rw [hview, SiameseEncoder.acknowledge_nextColumn, ih]
      · rw [h.ack_refused e message hsuccess, ih]

theorem numbers (h : S.Windowed view) : S.Numbers := by
  intro added emitted e data hrun hsuccess
  rw [(h.of_add hsuccess).1, h.nextColumn_eq hrun]

end Siamese.Windowed

end FecRelay
