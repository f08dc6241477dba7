import FecRelay.Codec.ByteEncoder

/-!
# The running sums of the decoder

The decoder adds up what it received of the packets that a row covers, in the same lanes as
the encoder, to take it from the recovery packet. A sum passes over packets that are lost.
Once they are recovered they are holes of the sum, which are plugged before the sum is used
again.
-/

namespace FecRelay

open FecRelay.Base

/-- `DecoderSum` -/
structure DecoderSum where
  elementStart : Nat := 0
  elementEnd : Nat := 0
  buffer : Bytes := []
  deriving DecidableEq

/-- `DecoderPacketWindow` with its sums -/
structure SumWindow extends DecoderPacketWindow where
  /-- `Lanes[laneIndex].Sums[sumIndex]` -/
  sums : Nat → Nat → DecoderSum := fun _ _ => {}
  sumColumnStart : Nat := 0
  sumColumnCount : Nat := 0
  recoveredColumns : List Nat := []

namespace SumWindow

/-- `InvalidElement` -/
def InvalidElement (w : SumWindow) (element : Nat) : Prop := w.count ≤ element

instance (w : SumWindow) (element : Nat) : Decidable (w.InvalidElement element) :=
  inferInstanceAs (Decidable (_ ≤ _))

/-- The packet at an element. Its `Column` is the one of the element. -/
def original (w : SumWindow) (element : Nat) : SentPacket where
  column := w.elementToColumn element
  buffer := (w.getWindowElement element).buffer

/-- `ResetSums(elementStart)` -/
def resetSums (w : SumWindow) (elementStart : Nat) : SumWindow := { w with
  sums := fun laneIndex _ => {
    elementStart := ByteWindow.getNextLaneElement elementStart laneIndex
    elementEnd := ByteWindow.getNextLaneElement elementStart laneIndex }
  recoveredColumns := [] }

/-- The sum passed over the packet at an element. -/
def PassedOver (w : SumWindow) (elementStart laneIndex sumIndex element : Nat) : Prop :=
  ByteWindow.getNextLaneElement elementStart laneIndex ≤ element ∧
    element < (w.sums laneIndex sumIndex).elementEnd

instance (w : SumWindow) (elementStart laneIndex sumIndex element : Nat) :
    Decidable (w.PassedOver elementStart laneIndex sumIndex element) :=
  inferInstanceAs (Decidable (_ ∧ _))

/-- One packet that was recovered, in the loop of `PlugSumHoles` -/
def plugSumHole (w : SumWindow) (elementStart column : Nat) : Option SumWindow :=
  let element := w.columnToElement column
  if w.InvalidElement element then some w
  else
    let laneIndex := column % columnLaneCount
    let buffer := (w.getWindowElement element).buffer
    if buffer = [] ∧ ∃ sumIndex < columnSumCount,
        w.PassedOver elementStart laneIndex sumIndex element then none
    else some { w with
      sums := Function.update w.sums laneIndex fun sumIndex =>
        let sum := w.sums laneIndex sumIndex
        if w.PassedOver elementStart laneIndex sumIndex element then
          { sum with buffer := ByteWindow.accumulate sumIndex sum.buffer ⟨column, buffer⟩ }
        else sum }

/-- The loop of `PlugSumHoles` -/
def plugLoop (elementStart : Nat) : List Nat → SumWindow → Option SumWindow
  | [], w => some w
  | column :: columns, w =>
      match w.plugSumHole elementStart column with
      | none => none
      | some w => plugLoop elementStart columns w

/-- `PlugSumHoles` -/
def plugSumHoles (w : SumWindow) (elementStart : Nat) : Option SumWindow :=
  (plugLoop elementStart w.recoveredColumns w).map fun w => { w with recoveredColumns := [] }

/-- A sum that is started or goes on at an element -/
def startSum (sum : DecoderSum) (laneElementStart bufferBytes : Nat) : DecoderSum :=
  if sum.buffer = [] ∨ sum.elementStart ≠ laneElementStart then {
    elementStart := laneElementStart
    elementEnd := laneElementStart
    buffer := growZeroPadded [] bufferBytes }
  else { sum with buffer := growZeroPadded sum.buffer bufferBytes }

/-- `StartSums` -/
def startSums (w : SumWindow) (elementStart bufferBytes : Nat) : Option SumWindow :=
  let w : SumWindow := { w with
    sums := fun laneIndex sumIndex => startSum (w.sums laneIndex sumIndex)
      (ByteWindow.getNextLaneElement elementStart laneIndex) bufferBytes }
  if w.recoveredColumns = [] then some w else w.plugSumHoles elementStart

/-- The loop of `GetSum`, with the number of rounds that are left. It passes over packets that
are lost. -/
def accumulateLane (w : SumWindow) (sumIndex : Nat) : Nat → Nat → Bytes → Bytes
  | 0, _, sum => sum
  | rounds + 1, element, sum =>
      let original := w.original element
      accumulateLane w sumIndex rounds (element + columnLaneCount)
        (if original.buffer = [] then sum else ByteWindow.accumulate sumIndex sum original)

/-- `GetSum`: the sum, and the window that has it -/
def getSum (w : SumWindow) (laneIndex sumIndex elementEnd : Nat) : Bytes × SumWindow :=
  let sum := w.sums laneIndex sumIndex
  if elementEnd ≤ sum.elementEnd then (sum.buffer, w)
  else
    let rounds := (elementEnd - sum.elementEnd + columnLaneCount - 1) / columnLaneCount
    let buffer := w.accumulateLane sumIndex rounds sum.elementEnd sum.buffer
    (buffer, { w with
      sums := Function.update w.sums laneIndex (Function.update (w.sums laneIndex) sumIndex
        { sum with
          elementEnd := sum.elementEnd + rounds * columnLaneCount
          buffer := buffer }) })

/-- All sums are rolled up to an element, as in `RemoveElements`. -/
def rollSums (w : SumWindow) (elementEnd : Nat) : SumWindow :=
  (List.range columnLaneCount).foldl (fun w laneIndex =>
    (List.range columnSumCount).foldl (fun w sumIndex =>
      (w.getSum laneIndex sumIndex elementEnd).2) w) w

/-- The sums count elements from the first one that is kept. -/
def clipSums (w : SumWindow) (removedElementCount : Nat) : SumWindow := { w with
  sums := fun laneIndex sumIndex =>
    let sum := w.sums laneIndex sumIndex
    { sum with
      elementStart :=
        if removedElementCount ≤ sum.elementStart then sum.elementStart - removedElementCount
        else laneIndex
      elementEnd := sum.elementEnd - removedElementCount } }

/-! ## Received data is taken from a recovery packet -/

/-- One packet is taken from a parity or Cauchy row. -/
def eliminateElement (w : SumWindow) (r : RecoveryPacket) (buffer : Bytes) (element : Nat) :
    Bytes :=
  let original := w.original element
  let addBytes := original.buffer.take buffer.length
  if r.row = 0 then addMem buffer addBytes
  else
    let y := (cauchyElement (r.row - 1) (original.column % cauchyMaxColumns)).byte
    muladdMem buffer y addBytes

/-- One bit of a lane's opcode: a sum is taken from the recovery packet or from the product. -/
def eliminateDenseBit (r : RecoveryPacket) (laneIndex : Nat) (x : SumWindow × Bytes × Bytes)
    (bit : Nat) : SumWindow × Bytes × Bytes :=
  if (getRowOpcode laneIndex r.row).testBit bit then
    let sum := x.1.getSum laneIndex (bit % columnSumCount) r.elementEnd
    let addBytes := sum.1.take r.buffer.length
    if bit < columnSumCount then (sum.2, addMem x.2.1 addBytes, x.2.2)
    else (sum.2, x.2.1, addMem x.2.2 addBytes)
  else x

/-- The loop over the light columns of a row -/
def eliminateLight (w : SumWindow) (r : RecoveryPacket) :
    Nat → PcgRandom → Bytes → Bytes → Bytes × Bytes
  | 0, _, recovery, product => (recovery, product)
  | k + 1, prng, recovery, product =>
      let element1 := prng.below r.metadata.ldpcCount
      let elementRX := element1.2.below r.metadata.ldpcCount
      let original1 := w.original (r.elementStart + element1.1)
      let originalRX := w.original (r.elementStart + elementRX.1)
      eliminateLight w r k elementRX.2
        (addMem recovery (original1.buffer.take r.buffer.length))
        (addMem product (originalRX.buffer.take r.buffer.length))

/-- The sums are made ready for a row. -/
def prepareSums (w : SumWindow) (metadata : RecoveryMetadata) (recoveryBytes : Nat) :
    Option SumWindow :=
  let sumElementStart := w.columnToElement metadata.columnStart
  if metadata.columnStart ≠ w.sumColumnStart ∨ metadata.sumCount < w.sumColumnCount then
    if w.InvalidElement sumElementStart then none
    else some { w.resetSums sumElementStart with sumColumnStart := metadata.columnStart }
  else
    w.startSums (if w.InvalidElement sumElementStart then 0 else sumElementStart) recoveryBytes

/-- What `RemoveElements` does with the sums before so many elements are removed. `target` is
the first stored row that is made from sums, or what it remembers of the last one, with the
length of its buffer. Without one the sums are given up. -/
def moveSums (w : SumWindow) (target : Option (RecoveryMetadata × Nat))
    (removedElementCount : Nat) : Option SumWindow :=
  match target with
  | none => some { w with sumColumnCount := 0 }
  | some (metadata, recoveryBytes) =>
      (w.prepareSums metadata recoveryBytes).map fun v =>
        let moved : SumWindow := { v with
          sumColumnCount :=
            if metadata.columnStart ≠ w.sumColumnStart ∨ metadata.sumCount < w.sumColumnCount
            then metadata.sumCount else v.sumColumnCount }
        (moved.rollSums removedElementCount).clipSums removedElementCount

/-- `RemoveElements`, once it is known which subwindow is the first to be kept -/
def removeElements (w : SumWindow) (target : Option (RecoveryMetadata × Nat))
    (firstKeptSubwindow : Nat) : Option SumWindow :=
  (w.moveSums target (firstKeptSubwindow * subwindowSize)).map fun v => { v with
    toDecoderPacketWindow := v.toDecoderPacketWindow.shift firstKeptSubwindow }

/-- One row of `EliminateOriginalData`: what is left of its buffer -/
def eliminateRecovery (w : SumWindow) (r : RecoveryPacket) : Option (Bytes × SumWindow) :=
  if r.IsCauchy then
    some ((List.range' r.elementStart (r.elementEnd - r.elementStart)).foldl
      (w.eliminateElement r) r.buffer, w)
  else
    match w.prepareSums r.metadata r.buffer.length with
    | none => none
    | some w =>
        let w : SumWindow := { w with sumColumnCount := r.metadata.sumCount }
        let dense := (List.range columnLaneCount).foldl (fun x laneIndex =>
          (List.range (2 * columnSumCount)).foldl (eliminateDenseBit r laneIndex) x)
          (w, r.buffer, List.replicate r.buffer.length 0)
        let light := dense.1.eliminateLight r r.pairCount
          (PcgRandom.seed r.row r.metadata.ldpcCount) dense.2.1 dense.2.2
        some (muladdMem light.1 (getRowValue r.row) light.2, dense.1)

/-- `EliminateOriginalData`, over the rows that are used for the solution: what is left of
their buffers -/
def eliminateOriginalData (used : Nat → Bool) :
    Nat → List RecoveryPacket → SumWindow → Option ((Nat → Bytes) × SumWindow)
  | _, [], w => some (fun _ => [], w)
  | i, r :: rows, w =>
      if used i then
        match w.eliminateRecovery r with
        | none => none
        | some (buffer, w) =>
            match eliminateOriginalData used (i + 1) rows w with
            | none => none
            | some (buffers, w) => some (Function.update buffers i buffer, w)
      else
        match eliminateOriginalData used (i + 1) rows w with
        | none => none
        | some (buffers, w) => some (Function.update buffers i r.buffer, w)

end SumWindow

end FecRelay
