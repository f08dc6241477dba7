import FecRelay.Codec.EncoderWindow
import FecRelay.Codec.Memory

/-!
# Rows of the recovery matrix

What a recovery packet says of the packets it covers: the coefficient of every column, for
parity rows, Cauchy rows and the rows made from running sums, and the row of the matrix that
`GenerateMatrix` fills with the coefficients of the columns that are lost.
-/

namespace FecRelay

open FecRelay.Base

/-! ## Parameters of the code -/

/-- `kColumnValuePeriod` -/
def columnValuePeriod : Nat := 253

/-- `kRowValuePeriod` -/
def rowValuePeriod : Nat := 255

/-- `kColumnSumCount` -/
def columnSumCount : Nat := 3

/-- `kPairAddRate` -/
def pairAddRate : Nat := 16

/-- `kCauchyMaxColumns` -/
def cauchyMaxColumns : Nat := siameseCauchyThreshold

/-- `kCauchyMaxRows` -/
def cauchyMaxRows : Nat := 256 - cauchyMaxColumns

/-- `GetColumnValue` -/
def getColumnValue (column : Nat) : UInt8 := UInt8.ofNat (3 + column * 199 % columnValuePeriod)

/-- `GetRowValue` -/
def getRowValue (row : Nat) : UInt8 := UInt8.ofNat (1 + (row + 1) % rowValuePeriod)

/-- `SubtractColumns` -/
def subtractColumns (a b : Nat) : Nat := Cyclic.distance siamesePacketNumCount a b

/-- `AddColumns` -/
def addColumns (a b : Nat) : Nat := (a + b) % siamesePacketNumCount

/-- `Int32Hash` -/
def int32Hash (key : UInt32) : UInt32 :=
  let key := key + ~~~(key <<< 15)
  let key := key ^^^ (key >>> 10)
  let key := key + (key <<< 3)
  let key := key ^^^ (key >>> 6)
  let key := key + ~~~(key <<< 11)
  key ^^^ (key >>> 16)

/-- `GetRowOpcode` -/
def getRowOpcode (lane row : Nat) : Nat :=
  let sumMask := 2 ^ (columnSumCount * 2) - 1
  let zeroValue := 2 ^ ((columnSumCount - 1) * 2)
  let arbitraryOffset := 3
  let hash := int32Hash (UInt32.ofNat (lane + (row + arbitraryOffset) * columnLaneCount))
  let opcode := hash.toNat &&& sumMask
  if opcode = 0 then zeroValue else opcode

/-- `CauchyElement` -/
def cauchyElement (row column : Nat) : Gf256 :=
  ⟨Gf256.inv (UInt8.ofNat (row + cauchyMaxColumns) ^^^ UInt8.ofNat column)⟩

/-- `PCGRandom` -/
structure PcgRandom where
  state : UInt64 := 0
  inc : UInt64 := 0
  deriving DecidableEq

namespace PcgRandom

def next (r : PcgRandom) : UInt32 × PcgRandom :=
  let xorshifted := (((r.state >>> 18) ^^^ r.state) >>> 27).toUInt32
  let rot := (r.state >>> 59).toUInt32
  ((xorshifted >>> rot) ||| (xorshifted <<< ((0 - rot) &&& 31)),
    { r with state := r.state * 6364136223846793005 + r.inc })

def seed (y x : Nat) : PcgRandom :=
  let r : PcgRandom := { state := 0, inc := (UInt64.ofNat y <<< 1) ||| 1 }
  let r := r.next.2
  { r with state := r.state + UInt64.ofNat x }.next.2

/-- `Next() % count` -/
def below (r : PcgRandom) (count : Nat) : Nat × PcgRandom := (r.next.1.toNat % count, r.next.2)

end PcgRandom

/-! ## Coefficients -/

/-- `RecoveryPacket` -/
structure RecoveryPacket where
  metadata : RecoveryMetadata
  /-- `Metadata.Row` -/
  row : Nat
  elementStart : Nat
  elementEnd : Nat
  lostCount : Nat := 0
  buffer : Bytes := []
  deriving DecidableEq

/-- `RecoveryMatrixState::ColumnInfo`. The slot of the packet is named by its element. -/
structure ColumnInfo where
  element : Nat
  column : Nat
  deriving DecidableEq

/-- What an opcode says of a column with value `cx`, in a row with value `rx`. -/
def opcodeValue (opcode : Nat) (cx rx : Gf256) : Gf256 :=
  let cx2 := cx * cx
  (if opcode.testBit 0 then 1 else 0) + (if opcode.testBit 1 then cx else 0) +
    (if opcode.testBit 2 then cx2 else 0) + (if opcode.testBit 3 then rx else 0) +
    (if opcode.testBit 4 then cx * rx else 0) + if opcode.testBit 5 then cx2 * rx else 0

namespace RecoveryPacket

/-- The packet is a parity or Cauchy row. -/
def IsCauchy (r : RecoveryPacket) : Prop := r.metadata.sumCount ≤ siameseCauchyThreshold

instance (r : RecoveryPacket) : Decidable r.IsCauchy := inferInstanceAs (Decidable (_ ≤ _))

/-- `RX` -/
def rowValue (r : RecoveryPacket) : Gf256 := ⟨getRowValue r.row⟩

/-- The value of a column that the packet covers, without the light columns. -/
def denseValue (r : RecoveryPacket) (column : Nat) : Gf256 :=
  if r.IsCauchy then
    if r.row = 0 then 1 else cauchyElement (r.row - 1) (column % cauchyMaxColumns)
  else opcodeValue (getRowOpcode (column % columnLaneCount) r.row) ⟨getColumnValue column⟩ r.rowValue

/-- The column is among the packets that the row covers. -/
def Covers (r : RecoveryPacket) (column : Nat) : Prop :=
  subtractColumns column r.metadata.columnStart < r.metadata.sumCount

instance (r : RecoveryPacket) (column : Nat) : Decidable (r.Covers column) :=
  inferInstanceAs (Decidable (_ < _))

/-- `pairCount` -/
def pairCount (r : RecoveryPacket) : Nat := (r.metadata.ldpcCount + pairAddRate - 1) / pairAddRate

/-- The elements of the light columns of some rounds, each with the value it adds. -/
def lightPairs (r : RecoveryPacket) : Nat → PcgRandom → List (Nat × Gf256)
  | 0, _ => []
  | k + 1, prng =>
      let element1 := prng.below r.metadata.ldpcCount
      let elementRX := element1.2.below r.metadata.ldpcCount
      (r.elementStart + element1.1, 1) :: (r.elementStart + elementRX.1, r.rowValue) ::
        lightPairs r k elementRX.2

/-- The light columns of a row made from sums. -/
def light (r : RecoveryPacket) : List (Nat × Gf256) :=
  if r.IsCauchy then []
  else r.lightPairs r.pairCount (PcgRandom.seed r.row r.metadata.ldpcCount)

/-- What the light columns add to a column. -/
def lightAt (light : List (Nat × Gf256)) (c : ColumnInfo) : Gf256 :=
  ((light.filter fun x => x.1 = c.element).map Prod.snd).sum

/-- The coefficient of a lost packet in what the recovery packet holds. -/
def coefficient (r : RecoveryPacket) (c : ColumnInfo) : Gf256 :=
  (if r.Covers c.column then r.denseValue c.column else 0) +
    lightAt r.light c

/-! ## Filling a row -/

/-- The loop over the columns from `j` on. It ends at the first column that is not covered. -/
def fillDense (r : RecoveryPacket) : Nat → List ColumnInfo → (Nat → Gf256) → Nat → Gf256
  | _, [], rowData => rowData
  | j, c :: cs, rowData =>
      if r.Covers c.column then
        fillDense r (j + 1) cs (Function.update rowData j (r.denseValue c.column))
      else fun i => if j ≤ i ∧ i < j + (cs.length + 1) then 0 else rowData i

/-- The loop over the light columns, of which those before `start` are in the row already.
A packet that was lost names its column. -/
def fillLight (columns : List ColumnInfo) (start : Nat) :
    List (Nat × Gf256) → (Nat → Gf256) → Nat → Gf256
  | [], rowData => rowData
  | (element, value) :: rest, rowData =>
      let matrixColumn := columns.findIdx fun c => c.element = element
      fillLight columns start rest
        (if matrixColumn < columns.length ∧ start ≤ matrixColumn then
          Function.update rowData matrixColumn (rowData matrixColumn + value)
        else rowData)

/-- The row that `GenerateMatrix` fills from column `start` on. -/
def fillRow (r : RecoveryPacket) (columns : List ColumnInfo) (start : Nat)
    (rowData : Nat → Gf256) : Nat → Gf256 :=
  fillLight columns start r.light (r.fillDense start (columns.drop start) rowData)

/-- Among some columns, those that are not covered come after those that are. -/
def Ordered (r : RecoveryPacket) (columns : List ColumnInfo) : Prop :=
  columns.Pairwise fun c c' => r.Covers c'.column → r.Covers c.column

theorem fillDense_of_lt (r : RecoveryPacket) {j i : Nat} (columns : List ColumnInfo)
    (rowData : Nat → Gf256) (hi : i < j) : r.fillDense j columns rowData i = rowData i := by
  induction columns generalizing j rowData with
  | nil => rfl
  | cons c cs ih =>
      rw [fillDense]
      split
      · rw [ih _ (by omega), Function.update_of_ne (by omega)]
      · exact if_neg (by omega)

/-- What the loop over the columns writes. -/
theorem fillDense_spec (r : RecoveryPacket) {columns : List ColumnInfo} (h : r.Ordered columns)
    (j : Nat) (rowData : Nat → Gf256) (i : Nat) (hi : i < columns.length) :
    r.fillDense j columns rowData (j + i) =
      if r.Covers (columns[i]).column then r.denseValue (columns[i]).column else 0 := by
  induction columns generalizing j i rowData with
  | nil => simp at hi
  | cons c cs ih =>
      have hordered := List.pairwise_cons.mp h
      rw [fillDense]
      by_cases hcovers : r.Covers c.column
      · rw [if_pos hcovers]
        cases i with
        | zero => simp [fillDense_of_lt, hcovers]
        | succ i =>
            have hstep := ih hordered.2 (j + 1) (Function.update rowData j (r.denseValue c.column))
              i (by simpa using hi)
            rw [show j + (i + 1) = j + 1 + i by omega]
            simpa using hstep
      · rw [if_neg hcovers, if_pos ⟨by omega, by simp at hi; omega⟩]
        cases i with
        | zero => simp [hcovers]
        | succ i =>
            have hlt : i < cs.length := by simpa using hi
            have hnot : ¬r.Covers (cs[i]).column := fun hc =>
              hcovers (hordered.1 cs[i] (List.getElem_mem hlt) hc)
            simp [hnot]

@[simp] theorem lightAt_cons (x : Nat × Gf256) (light : List (Nat × Gf256)) (c : ColumnInfo) :
    lightAt (x :: light) c = (if x.1 = c.element then x.2 else 0) + lightAt light c := by
  unfold lightAt
  by_cases h : x.1 = c.element <;> simp [h]

/-- What the loop over the light columns adds. -/
theorem fillLight_spec {columns : List ColumnInfo} (hnodup : (columns.map (·.element)).Nodup)
    (start : Nat) (light : List (Nat × Gf256)) (rowData : Nat → Gf256) (i : Nat)
    (hi : i < columns.length) :
    fillLight columns start light rowData i =
      rowData i + if start ≤ i then lightAt light columns[i] else 0 := by
  induction light generalizing rowData with
  | nil => simp [fillLight, lightAt]
  | cons x rest ih =>
      obtain ⟨element, value⟩ := x
      have hfound : columns.findIdx (fun c => c.element = element) = i ↔
          element = (columns[i]).element := by
        constructor
        · intro h
          have hlt : columns.findIdx (fun c => decide (c.element = element)) < columns.length := by
            omega
          have hat := List.findIdx_getElem (w := hlt)
          simp only [h, decide_eq_true_eq] at hat
          exact hat.symm
        · intro h
          have hlt : columns.findIdx (fun c => decide (c.element = element)) < columns.length :=
            List.findIdx_lt_length.mpr ⟨columns[i], List.getElem_mem hi, by simp [h]⟩
          have hat := List.findIdx_getElem (w := hlt)
          rw [decide_eq_true_eq] at hat
          exact (List.Nodup.of_map _ hnodup).getElem_inj_iff.mp
            (List.inj_on_of_nodup_map hnodup (List.getElem_mem hlt) (List.getElem_mem hi)
              (hat.trans h))
      rw [fillLight, ih, lightAt_cons]
      simp only
      by_cases hstart : start ≤ i
      · rw [if_pos hstart, if_pos hstart]
        by_cases hat : element = (columns[i]).element
        · rw [if_pos ⟨by rw [hfound.mpr hat]; exact hi, by rw [hfound.mpr hat]; exact hstart⟩,
            hfound.mpr hat, Function.update_self, if_pos hat, add_assoc]
        · have hne : i ≠ columns.findIdx (fun c => decide (c.element = element)) :=
            fun h => hat (hfound.mp h.symm)
          rw [if_neg hat, zero_add]
          split
          · rw [Function.update_of_ne hne]
          · rfl
      · rw [if_neg hstart, if_neg hstart]
        split
        · rw [Function.update_of_ne (by omega)]
        · rfl

/-- **A row of the matrix.** The columns before `start` stay, and each column from there on is
the coefficient of its packet. -/
theorem fillRow_spec (r : RecoveryPacket) {columns : List ColumnInfo}
    (hordered : r.Ordered columns) (hnodup : (columns.map (·.element)).Nodup) (start : Nat)
    (rowData : Nat → Gf256) {i : Nat} (hi : i < columns.length) :
    r.fillRow columns start rowData i =
      if start ≤ i then r.coefficient columns[i] else rowData i := by
  rw [fillRow, fillLight_spec hnodup _ _ _ _ hi]
  by_cases hstart : start ≤ i
  · rw [if_pos hstart, if_pos hstart, coefficient]
    have hdrop : r.Ordered (columns.drop start) := hordered.sublist (List.drop_sublist _ _)
    have hdense := r.fillDense_spec hdrop start rowData (i - start)
      (by rw [List.length_drop]; omega)
    have hindex : start + (i - start) = i := by omega
    simp only [List.getElem_drop, hindex] at hdense
    rw [hdense]
  · rw [if_neg hstart, if_neg hstart, add_zero, fillDense_of_lt _ _ _ (by omega)]

end RecoveryPacket

end FecRelay
