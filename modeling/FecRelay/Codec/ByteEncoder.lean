import FecRelay.Codec.LossRanges
import FecRelay.Codec.Rows
import FecRelay.Codec.Sums

/-!
# The encoder with the bytes of its packets

`EncoderPacketWindow` keeps the sizes of the packets. Here it keeps the packets as well, and
the running sums of every lane, from which the recovery packets are made. The sums are behind
the window: a lane accumulates its packets when a recovery packet needs them, and before they
are removed.
-/

namespace FecRelay

open FecRelay.Base

/-- `OriginalPacket` in the encoder's window -/
structure SentPacket where
  column : Nat := 0
  buffer : Bytes := []
  deriving DecidableEq

/-- `OriginalPacket::Initialize(packet)`, where `DataBytes` is an `unsigned`. -/
def framed (data : Bytes) : Bytes :=
  (DecoderPacketWindow.originalPacket (data.take (u32 data.length))).buffer

/-- `EncoderColumnLane` -/
structure EncoderColumnLane where
  nextElement : Nat → Nat
  sum : Nat → Bytes := fun _ => []
  longestPacket : Nat := 0

/-- `EncoderPacketWindow` with its packets and sums -/
structure ByteWindow extends EncoderPacketWindow where
  packets : List SentPacket := []
  lanes : Nat → EncoderColumnLane := fun laneIndex => { nextElement := fun _ => laneIndex }

namespace ByteWindow

/-- `GetWindowElement` -/
def getWindowElement (w : ByteWindow) (element : Nat) : SentPacket := w.packets.getD element {}

/-- `GetNextLaneElement` -/
def getNextLaneElement (element laneIndex : Nat) : Nat :=
  let nextElement := element - element % columnLaneCount + laneIndex
  if nextElement < element then nextElement + columnLaneCount else nextElement

/-! ## Packets -/

/-- `StartNewWindow(column)`. What the skipped elements still hold is not used. -/
def startNewWindow (w : ByteWindow) (column : Nat) : ByteWindow where
  toEncoderPacketWindow := w.toEncoderPacketWindow.startNewWindow column
  packets := List.replicate (column % columnLaneCount) {}
  lanes laneIndex := { w.lanes laneIndex with longestPacket := 0 }

/-- `Add(packet)`, when there are slots left -/
def add (w : ByteWindow) (data : Bytes) : ByteWindow :=
  let column := w.nextColumn
  let started := if w.count = 0 then w.startNewWindow column else w
  let original : SentPacket := { column := column, buffer := framed data }
  let laneIndex := column % columnLaneCount
  let lane := started.lanes laneIndex
  { toEncoderPacketWindow := w.toEncoderPacketWindow.add (SiameseEncoder.packetBytes data)
    packets := started.packets ++ [original]
    lanes := Function.update started.lanes laneIndex
      { lane with longestPacket := max lane.longestPacket original.buffer.length } }

/-- `RemoveBefore(firstKeptColumn)` -/
def removeBefore (w : ByteWindow) (firstKeptColumn : Nat) : ByteWindow :=
  let kept := w.toEncoderPacketWindow.removeBefore firstKeptColumn
  { toEncoderPacketWindow := kept
    packets := if kept.count = 0 then [] else w.packets
    lanes := w.lanes }

/-! ## Running sums -/

/-- `ResetSums(elementStart)` -/
def resetSums (w : ByteWindow) (elementStart : Nat) : ByteWindow where
  toEncoderPacketWindow := w.toEncoderPacketWindow.resetSums elementStart
  packets := w.packets
  lanes laneIndex := {
    nextElement := fun _ => getNextLaneElement elementStart laneIndex
    sum := fun _ => []
    longestPacket := (w.lanes laneIndex).longestPacket }

/-- One packet is added to a sum. -/
def accumulate (sumIndex : Nat) (sum : Bytes) (original : SentPacket) : Bytes :=
  let sum := growZeroPadded sum original.buffer.length
  if sumIndex = 0 then addMem sum original.buffer
  else
    let cx := getColumnValue original.column
    let cx := if sumIndex = 2 then Gf256.sqr cx else cx
    muladdMem sum cx original.buffer

/-- The loop of `GetSum`, with the number of rounds that are left. -/
def accumulateLane (w : ByteWindow) (sumIndex : Nat) : Nat → Nat → Bytes → Bytes
  | 0, _, sum => sum
  | rounds + 1, element, sum =>
      accumulateLane w sumIndex rounds (element + columnLaneCount)
        (accumulate sumIndex sum (w.getWindowElement element))

/-- `GetSum`: the sum, and the window that has it. -/
def getSum (w : ByteWindow) (laneIndex sumIndex elementEnd : Nat) : Bytes × ByteWindow :=
  let lane := w.lanes laneIndex
  let element := lane.nextElement sumIndex
  if element < elementEnd then
    let rounds := (elementEnd - element + columnLaneCount - 1) / columnLaneCount
    let sum := w.accumulateLane sumIndex rounds element
      (growZeroPadded (lane.sum sumIndex) lane.longestPacket)
    (sum, { w with
      lanes := Function.update w.lanes laneIndex { lane with
        nextElement := Function.update lane.nextElement sumIndex
          (element + rounds * columnLaneCount)
        sum := Function.update lane.sum sumIndex sum } })
  else (lane.sum sumIndex, w)

/-- All sums are rolled up to an element. -/
def rollSums (w : ByteWindow) (elementEnd : Nat) : ByteWindow :=
  (List.range columnLaneCount).foldl (fun w laneIndex =>
    (List.range columnSumCount).foldl (fun w sumIndex =>
      (w.getSum laneIndex sumIndex elementEnd).2) w) w

/-- `RemoveElements` -/
def removeElements (w : ByteWindow) : ByteWindow :=
  let removed := w.firstUnremovedElement / subwindowSize * subwindowSize
  let rolled := if w.sumStartElement < w.sumEndElement then w.rollSums removed else w
  let packets := w.packets.drop removed
  let kept : ByteWindow := {
    toEncoderPacketWindow := w.toEncoderPacketWindow.removeElements
    packets := packets
    lanes := fun laneIndex =>
      let lane := rolled.lanes laneIndex
      { lane with
        nextElement := fun sumIndex =>
          if w.sumStartElement < w.sumEndElement then lane.nextElement sumIndex - removed
          else lane.nextElement sumIndex
        longestPacket := EncoderPacketWindow.longest
          (((packets.zipIdx.drop (w.firstUnremovedElement - removed)).filter fun x =>
            x.2 % columnLaneCount = laneIndex).map fun x => x.1.buffer.length) } }
  if kept.sumEndElement ≤ kept.sumStartElement then kept.resetSums kept.firstUnremovedElement
  else kept

/-- Elements that are no longer needed go once there are enough of them. -/
def trim (w : ByteWindow) : ByteWindow :=
  if encoderRemoveThreshold ≤ w.firstUnremovedElement then w.removeElements else w

end ByteWindow

/-! ## Recovery packets -/

/-- A recovery packet: what is in front of the footer, and what the footer says. -/
structure EncodedPacket where
  body : Bytes
  metadata : RecoveryMetadata
  row : Nat
  deriving DecidableEq

/-- The bytes that are sent. -/
def EncodedPacket.bytes (x : EncodedPacket) : Bytes :=
  x.body ++ serializeFooterRecoveryMetadata x.metadata (UInt8.ofNat x.row)

/-- `siamese::Encoder` with the bytes of its packets -/
structure ByteEncoder where
  window : ByteWindow := {}
  ack : EncoderAcknowledgementState := {}
  nextRow : Nat := 0
  nextParityColumn : Nat := 0
  nextCauchyRow : Nat := 0

namespace ByteWindow

/-- The rest of the loop that makes a parity row: what it adds up, and `usedBytes`. -/
def addParity : List SentPacket → Bytes → Nat → Bytes × Nat
  | [], data, usedBytes => (data, usedBytes)
  | original :: rest, data, usedBytes =>
      addParity rest (addMem data original.buffer) (max usedBytes original.buffer.length)

/-- The rest of the loop that makes a Cauchy row, after the column `cauchyColumn`. -/
def addCauchy (cauchyRow : Nat) : List SentPacket → Nat → Bytes → Nat → Bytes × Nat
  | [], _, data, usedBytes => (data, usedBytes)
  | original :: rest, cauchyColumn, data, usedBytes =>
      let cauchyColumn := (cauchyColumn + 1) % cauchyMaxColumns
      let y := (cauchyElement cauchyRow cauchyColumn).byte
      addCauchy cauchyRow rest cauchyColumn (muladdMem data y original.buffer)
        (max usedBytes original.buffer.length)

/-- One bit of a lane's opcode: a sum goes to the recovery packet or to the product. -/
def addDenseBit (row laneIndex : Nat) (x : ByteWindow × Bytes × Bytes) (bit : Nat) :
    ByteWindow × Bytes × Bytes :=
  if (getRowOpcode laneIndex row).testBit bit then
    let sum := x.1.getSum laneIndex (bit % columnSumCount) x.1.count
    let addBytes := sum.1.take x.1.longestPacket
    if bit < columnSumCount then (sum.2, addMem x.2.1 addBytes, x.2.2)
    else (sum.2, x.2.1, addMem x.2.2 addBytes)
  else x

/-- `AddDenseColumns` -/
def addDenseColumns (w : ByteWindow) (row : Nat) (recovery product : Bytes) :
    ByteWindow × Bytes × Bytes :=
  let done := (List.range columnLaneCount).foldl (fun x laneIndex =>
    (List.range (2 * columnSumCount)).foldl (addDenseBit row laneIndex) x) (w, recovery, product)
  ({ done.1 with sumEndElement := done.1.count }, done.2)

/-- The loop of `AddLightColumns` -/
def addLightColumns (w : ByteWindow) (count : Nat) :
    Nat → PcgRandom → Bytes → Bytes → Bytes × Bytes
  | 0, _, recovery, product => (recovery, product)
  | k + 1, prng, recovery, product =>
      let element1 := prng.below count
      let elementRX := element1.2.below count
      let original1 := w.getWindowElement (w.firstUnremovedElement + element1.1)
      let originalRX := w.getWindowElement (w.firstUnremovedElement + elementRX.1)
      addLightColumns w count k elementRX.2 (addMem recovery original1.buffer)
        (addMem product originalRX.buffer)

end ByteWindow

namespace ByteEncoder

/-- `siamese_encoder_add` -/
def add (s : ByteEncoder) (data : Bytes) : SiameseResult × Nat × ByteEncoder :=
  if ¬SiameseEncoder.Acceptable data then (.invalidInput, 0, s)
  else if s.window.getRemainingSlots = 0 then (.maxPacketsReached, 0, s)
  else (.success, s.window.nextColumn, { s with window := s.window.add data })

/-- `Acknowledge` of a message that says which column is expected next and has well-formed
loss ranges -/
def acknowledge (s : ByteEncoder) (nextColumnExpected : Nat) (ranges : Bytes) : ByteEncoder :=
  let columnDelta :=
    Cyclic.distance siamesePacketNumCount nextColumnExpected s.ack.nextColumnExpected
  if Cyclic.backwards siamesePacketNumCount columnDelta then s
  else if s.ack.nextColumnExpected = nextColumnExpected ∧ s.ack.repeats ranges = true then s
  else { s with
    window := s.window.removeBefore nextColumnExpected
    ack := {
      nextColumnExpected := nextColumnExpected
      data := if ranges = [] then s.ack.data else some ranges
      dataBytes := ranges.length } }

/-- `OnAcknowledgementData`. A message is refused if its first loss range is malformed, but it
is the latest one then. -/
def onAcknowledgementData (s : ByteEncoder) (message : Bytes) : Bool × ByteEncoder :=
  match deserializeHeaderPacketNum message with
  | none => (false, s)
  | some (nextColumnExpected, ranges) =>
      let columnDelta :=
        Cyclic.distance siamesePacketNumCount nextColumnExpected s.ack.nextColumnExpected
      if Cyclic.backwards siamesePacketNumCount columnDelta then (true, s)
      else if s.ack.nextColumnExpected = nextColumnExpected ∧ s.ack.repeats ranges = true then
        (true, s)
      else
        let ack : EncoderAcknowledgementState := {
          nextColumnExpected := nextColumnExpected
          data := if ranges = [] then s.ack.data else some ranges
          dataBytes := ranges.length }
        let it : LossIterator := { data := ranges, lossColumn := nextColumnExpected }
        if ranges ≠ [] ∧ it.decodeNextRange = none then (false, { s with ack := ack })
        else (true, { s with window := s.window.removeBefore nextColumnExpected, ack := ack })

/-- `siamese_encoder_ack` -/
def encoderAck (s : ByteEncoder) (message : Bytes) : SiameseResult × Nat × ByteEncoder :=
  let x := s.onAcknowledgementData message
  if x.1 then (.success, x.2.ack.nextColumnExpected, x.2) else (.invalidInput, 0, x.2)

/-- `GenerateSinglePacket` -/
def generateSinglePacket (s : ByteEncoder) : EncodedPacket × ByteEncoder :=
  let original := s.window.getWindowElement s.window.firstUnremovedElement
  ({ body := original.buffer
     metadata := { sumCount := 1, ldpcCount := 1, columnStart := original.column }
     row := 0 }, s)

/-- `GenerateCauchyPacket` -/
def generateCauchyPacket (s : ByteEncoder) : EncodedPacket × ByteEncoder :=
  let w := s.window
  let recoveryBytes := w.longestPacket
  let unacknowledgedCount := w.getUnacknowledgedCount
  let metadata : RecoveryMetadata := {
    sumCount := unacknowledgedCount
    ldpcCount := unacknowledgedCount
    columnStart := w.elementToColumn w.firstUnremovedElement }
  let original := w.getWindowElement w.firstUnremovedElement
  let rest := w.packets.drop (w.firstUnremovedElement + 1)
  let nextParityElement := w.columnToElement s.nextParityColumn
  if nextParityElement ≤ w.firstUnremovedElement ∨
      Cyclic.backwards siamesePacketNumCount nextParityElement = true then
    let x := ByteWindow.addParity rest (growZeroPadded original.buffer recoveryBytes)
      original.buffer.length
    ({ body := x.1.take x.2, metadata := metadata, row := 0 },
      { s with nextParityColumn := addColumns metadata.columnStart unacknowledgedCount })
  else
    let cauchyRow := s.nextCauchyRow
    let cauchyColumn := metadata.columnStart % cauchyMaxColumns
    let y := (cauchyElement cauchyRow cauchyColumn).byte
    let x := ByteWindow.addCauchy cauchyRow rest cauchyColumn
      (growZeroPadded (mulMem original.buffer y) recoveryBytes) original.buffer.length
    ({ body := x.1.take x.2, metadata := metadata, row := cauchyRow + 1 },
      { s with nextCauchyRow := if cauchyMaxRows ≤ cauchyRow + 1 then 0 else cauchyRow + 1 })

/-- The end of `Encode`, for a packet that is made from running sums -/
def generateSumPacket (s : ByteEncoder) : EncodedPacket × ByteEncoder :=
  let row := s.nextRow
  let recoveryBytes := s.window.longestPacket
  let unacknowledgedCount := s.window.getUnacknowledgedCount
  let zeros := List.replicate recoveryBytes 0
  let dense := s.window.addDenseColumns row zeros zeros
  let w := dense.1
  let count := w.sumEndElement - w.firstUnremovedElement
  let pairCount := (count + pairAddRate - 1) / pairAddRate
  let light := w.addLightColumns count pairCount (PcgRandom.seed row count) dense.2.1 dense.2.2
  ({ body := muladdMem light.1 (getRowValue row) light.2
     metadata := {
       sumCount := w.sumEndElement - w.sumStartElement + w.sumErasedCount
       ldpcCount := unacknowledgedCount
       columnStart := w.sumColumnStart }
     row := row },
    { s with
      window := w
      nextRow := if rowValuePeriod ≤ row + 1 then 0 else row + 1 })

/-- `Encode` once the window was trimmed -/
def generate (s : ByteEncoder) : EncodedPacket × ByteEncoder :=
  let w := s.window
  let unacknowledgedCount := w.getUnacknowledgedCount
  let newSumCountUB := w.count + w.sumErasedCount - w.sumStartElement
  if unacknowledgedCount = 1 then s.generateSinglePacket
  else if w.sumEndElement ≤ w.sumStartElement ∨ siameseMaxPackets ≤ newSumCountUB then
    if unacknowledgedCount ≤ siameseCauchyThreshold then s.generateCauchyPacket
    else generateSumPacket { s with window := w.resetSums w.firstUnremovedElement }
  else if unacknowledgedCount ≤ siameseSumResetThreshold ∨
      newSumCountUB ≤ siameseCauchyThreshold then
    -- the sums are not used any more
    generateCauchyPacket { s with window := { w with sumEndElement := w.sumStartElement } }
  else s.generateSumPacket

/-- `Encode` -/
def encode (s : ByteEncoder) : Option EncodedPacket × ByteEncoder :=
  if s.window.count = 0 then (none, s)
  else
    let x := generate { s with window := s.window.trim }
    (some x.1, x.2)

end ByteEncoder

end FecRelay
