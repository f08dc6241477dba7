import FecRelay.Codec.DecoderWindow
import FecRelay.Codec.Decoding

/-!
# Loss ranges of an ack

An ack says which column the decoder expects next, and after that, as far as the buffer
goes, which ranges of columns are lost. Every range is given relative to the element after
the one that ended the range before it. The encoder reads one column at a time.
-/

namespace FecRelay

open FecRelay.Base

/-! ## The format of a range -/

/-- `kMaxLossRangeFieldBytes` -/
def maxLossRangeFieldBytes : Nat := 7

/-- `kPaddingBytes` -/
def paddingBytes : Nat := 8

/-- The relative start of a range, after the two bits that say how many are lost. -/
def serializeRelativeStart (lossBits relativeStart : Nat) : Bytes :=
  let byte0 := lossBits + relativeStart % 2 ^ 5 * 2 ^ 3
  if relativeStart < 2 ^ 5 then [UInt8.ofNat byte0]
  else if relativeStart < 2 ^ 12 then
    [UInt8.ofNat (byte0 + 4), UInt8.ofNat (relativeStart / 2 ^ 5)]
  else if relativeStart < 2 ^ 19 then
    [UInt8.ofNat (byte0 + 4), UInt8.ofNat (0x80 + relativeStart / 2 ^ 5 % 2 ^ 7),
      UInt8.ofNat (relativeStart / 2 ^ 12)]
  else
    [UInt8.ofNat (byte0 + 4), UInt8.ofNat (0x80 + relativeStart / 2 ^ 5 % 2 ^ 7),
      UInt8.ofNat (0x80 + relativeStart / 2 ^ 12 % 2 ^ 7), UInt8.ofNat (relativeStart / 2 ^ 19)]

/-- The extended loss count, which is what is beyond three. -/
def serializeLossCount (lossCount : Nat) : Bytes :=
  if lossCount < 2 ^ 7 then [UInt8.ofNat lossCount]
  else if lossCount < 2 ^ 14 then
    [UInt8.ofNat (0x80 + lossCount % 2 ^ 7), UInt8.ofNat (lossCount / 2 ^ 7)]
  else
    [UInt8.ofNat (0x80 + lossCount % 2 ^ 7), UInt8.ofNat (0x80 + lossCount / 2 ^ 7 % 2 ^ 7),
      UInt8.ofNat (lossCount / 2 ^ 14)]

/-- `SerializeHeader_NACKLossRange` -/
def serializeHeaderNackLossRange (relativeStart lossCountM1 : Nat) : Bytes :=
  serializeRelativeStart (min lossCountM1 3) relativeStart ++
    if lossCountM1 < 3 then [] else serializeLossCount (lossCountM1 - 3)

/-- The relative start of a range, with the number of bytes that it takes. -/
def deserializeRelativeStart (buffer : Bytes) : Nat × Nat :=
  let byte (i : Nat) : Nat := (buffer.getD i 0).toNat
  if byte 0 / 4 % 2 = 0 then (byte 0 / 2 ^ 3, 1)
  else if byte 1 < 0x80 then (byte 0 / 2 ^ 3 + byte 1 * 2 ^ 5, 2)
  else if byte 2 < 0x80 then
    (byte 0 / 2 ^ 3 + byte 1 % 2 ^ 7 * 2 ^ 5 + byte 2 * 2 ^ 12, 3)
  else
    (byte 0 / 2 ^ 3 + byte 1 % 2 ^ 7 * 2 ^ 5 + byte 2 % 2 ^ 7 * 2 ^ 12 + byte 3 * 2 ^ 19, 4)

/-- An extended loss count, with the number of bytes that it takes. -/
def deserializeLossCount (buffer : Bytes) : Nat × Nat :=
  let byte (i : Nat) : Nat := (buffer.getD i 0).toNat
  if byte 0 < 0x80 then (byte 0, 1)
  else if byte 1 < 0x80 then (byte 0 % 2 ^ 7 + byte 1 * 2 ^ 7, 2)
  else (byte 0 % 2 ^ 7 + byte 1 % 2 ^ 7 * 2 ^ 7 + byte 2 * 2 ^ 14, 3)

/-- `DeserializeHeader_NACKLossRange`: the relative start, one less than the loss count, and
the bytes they take. -/
def deserializeHeaderNackLossRange (buffer : Bytes) : Option (Nat × Nat × Nat) :=
  if buffer.length < maxLossRangeFieldBytes then none
  else
    let start := deserializeRelativeStart buffer
    let lossCountM1 := (buffer.getD 0 0).toNat % 4
    if lossCountM1 = 3 then
      let count := deserializeLossCount (buffer.drop start.2)
      some (start.1, lossCountM1 + count.1, start.2 + count.2)
    else some (start.1, lossCountM1, start.2)

theorem serializeRelativeStart_length (lossBits relativeStart : Nat) :
    0 < (serializeRelativeStart lossBits relativeStart).length ∧
      (serializeRelativeStart lossBits relativeStart).length ≤ 4 := by
  unfold serializeRelativeStart
  dsimp only
  split_ifs <;> simp

theorem serializeLossCount_length_le (lossCount : Nat) :
    (serializeLossCount lossCount).length ≤ 3 := by
  unfold serializeLossCount
  split_ifs <;> simp

theorem serializeHeaderNackLossRange_length (relativeStart lossCountM1 : Nat) :
    0 < (serializeHeaderNackLossRange relativeStart lossCountM1).length ∧
      (serializeHeaderNackLossRange relativeStart lossCountM1).length ≤ maxLossRangeFieldBytes := by
  have hstart := serializeRelativeStart_length (min lossCountM1 3) relativeStart
  have hcount := serializeLossCount_length_le (lossCountM1 - 3)
  unfold serializeHeaderNackLossRange maxLossRangeFieldBytes
  rw [List.length_append]
  split
  · rw [List.length_nil]
    omega
  · omega

theorem deserializeRelativeStart_serialize {lossBits relativeStart : Nat} (hbits : lossBits ≤ 3)
    (h : relativeStart < siamesePacketNumCount) (rest : Bytes) :
    deserializeRelativeStart (serializeRelativeStart lossBits relativeStart ++ rest) =
      (relativeStart, (serializeRelativeStart lossBits relativeStart).length) ∧
    ((serializeRelativeStart lossBits relativeStart ++ rest).getD 0 0).toNat % 4 = lossBits := by
  unfold siamesePacketNumCount at h
  have hlow : relativeStart % 32 < 32 := Nat.mod_lt _ (by decide)
  unfold serializeRelativeStart
  dsimp only
  by_cases h₁ : relativeStart < 2 ^ 5
  · have hbyte : (lossBits + relativeStart % 32 * 8) % 256 = lossBits + relativeStart % 32 * 8 :=
      Nat.mod_eq_of_lt (by omega)
    have hmark : (lossBits + relativeStart % 32 * 8) / 4 % 2 = 0 := by omega
    have hvalue : (lossBits + relativeStart % 32 * 8) / 8 = relativeStart := by omega
    rw [if_pos h₁]
    simp [deserializeRelativeStart, hbyte, hmark, hvalue]
    omega
  have hbyte₀ : (lossBits + relativeStart % 32 * 8 + 4) % 256 =
      lossBits + relativeStart % 32 * 8 + 4 := Nat.mod_eq_of_lt (by omega)
  have hmark : (lossBits + relativeStart % 32 * 8 + 4) / 4 % 2 = 1 := by omega
  have hfirst : (lossBits + relativeStart % 32 * 8 + 4) / 8 = relativeStart % 32 := by omega
  rw [if_neg h₁]
  by_cases h₂ : relativeStart < 2 ^ 12
  · have hbyte₁ : relativeStart / 32 % 256 = relativeStart / 32 := Nat.mod_eq_of_lt (by omega)
    have hone : relativeStart / 32 < 128 := by omega
    have hvalue : relativeStart % 32 + relativeStart / 32 * 32 = relativeStart := by omega
    rw [if_pos h₂]
    simp [deserializeRelativeStart, hbyte₀, hfirst, hbyte₁, hone, hvalue]
    omega
  have hbyte₁ : (128 + relativeStart / 32 % 128) % 256 = 128 + relativeStart / 32 % 128 :=
    Nat.mod_eq_of_lt (by omega)
  rw [if_neg h₂]
  by_cases h₃ : relativeStart < 2 ^ 19
  · have hbyte₂ : relativeStart / 4096 % 256 = relativeStart / 4096 := Nat.mod_eq_of_lt (by omega)
    have htwo : relativeStart / 4096 < 128 := by omega
    have hvalue : relativeStart % 32 + relativeStart / 32 % 128 * 32 +
        relativeStart / 4096 * 4096 = relativeStart := by omega
    rw [if_pos h₃]
    simp [deserializeRelativeStart, hbyte₀, hfirst, hbyte₁, hbyte₂, htwo, hvalue]
    omega
  · have hbyte₂ : (128 + relativeStart / 4096 % 128) % 256 = 128 + relativeStart / 4096 % 128 :=
      Nat.mod_eq_of_lt (by omega)
    have hbyte₃ : relativeStart / 524288 % 256 = relativeStart / 524288 :=
      Nat.mod_eq_of_lt (by omega)
    have hvalue : relativeStart % 32 + relativeStart / 32 % 128 * 32 +
        relativeStart / 4096 % 128 * 4096 + relativeStart / 524288 * 524288 = relativeStart := by
      omega
    rw [if_neg h₃]
    simp [deserializeRelativeStart, hbyte₀, hfirst, hbyte₁, hbyte₂, hbyte₃, hvalue]
    omega

theorem deserializeLossCount_serialize {lossCount : Nat} (h : lossCount < siamesePacketNumCount)
    (rest : Bytes) :
    deserializeLossCount (serializeLossCount lossCount ++ rest) =
      (lossCount, (serializeLossCount lossCount).length) := by
  unfold siamesePacketNumCount at h
  unfold serializeLossCount
  by_cases h₁ : lossCount < 2 ^ 7
  · have hbyte : lossCount % 256 = lossCount := Nat.mod_eq_of_lt (by omega)
    have hone : lossCount < 128 := h₁
    rw [if_pos h₁]
    simp [deserializeLossCount, hbyte, hone]
  have hbyte₀ : (128 + lossCount % 128) % 256 = 128 + lossCount % 128 :=
    Nat.mod_eq_of_lt (by omega)
  rw [if_neg h₁]
  by_cases h₂ : lossCount < 2 ^ 14
  · have hbyte₁ : lossCount / 128 % 256 = lossCount / 128 := Nat.mod_eq_of_lt (by omega)
    have hone : lossCount / 128 < 128 := by omega
    have hvalue : lossCount % 128 + lossCount / 128 * 128 = lossCount := by omega
    rw [if_pos h₂]
    simp [deserializeLossCount, hbyte₀, hbyte₁, hone, hvalue]
  · have hbyte₁ : (128 + lossCount / 128 % 128) % 256 = 128 + lossCount / 128 % 128 :=
      Nat.mod_eq_of_lt (by omega)
    have hbyte₂ : lossCount / 16384 % 256 = lossCount / 16384 := Nat.mod_eq_of_lt (by omega)
    have hvalue : lossCount % 128 + lossCount / 128 % 128 * 128 + lossCount / 16384 * 16384 =
        lossCount := by omega
    rw [if_neg h₂]
    simp [deserializeLossCount, hbyte₀, hbyte₁, hbyte₂, hvalue]

/-- **A range is read back as it was written**, from a buffer that is long enough to read. -/
theorem deserializeHeaderNackLossRange_serialize {relativeStart lossCountM1 : Nat}
    (hstart : relativeStart < siamesePacketNumCount)
    (hcount : lossCountM1 < siamesePacketNumCount) {rest : Bytes}
    (hroom : maxLossRangeFieldBytes ≤
      (serializeHeaderNackLossRange relativeStart lossCountM1 ++ rest).length) :
    deserializeHeaderNackLossRange (serializeHeaderNackLossRange relativeStart lossCountM1 ++ rest) =
      some (relativeStart, lossCountM1,
        (serializeHeaderNackLossRange relativeStart lossCountM1).length) := by
  unfold deserializeHeaderNackLossRange
  rw [if_neg (by omega)]
  unfold serializeHeaderNackLossRange
  rw [List.append_assoc]
  obtain ⟨hread, hbits⟩ := deserializeRelativeStart_serialize (min_le_right lossCountM1 3) hstart
    ((if lossCountM1 < 3 then [] else serializeLossCount (lossCountM1 - 3)) ++ rest)
  dsimp only
  rw [hread, hbits]
  by_cases hfew : lossCountM1 < 3
  · rw [if_neg (by omega), if_pos hfew, List.append_nil, Nat.min_eq_left (by omega)]
  · have hthree : min lossCountM1 3 = 3 := by omega
    rw [if_pos hthree, if_neg hfew, hthree, List.drop_left, List.length_append,
      deserializeLossCount_serialize (by unfold siamesePacketNumCount at hcount ⊢; omega)]
    dsimp only
    rw [Nat.add_sub_cancel' (by omega)]

/-! ## Writing an ack -/

namespace DecoderPacketWindow

/-- The loop of `GenerateAcknowledgement`. It recurses on the room that is left, of which every
range takes some. -/
def ackLoop (w : DecoderPacketWindow) : Nat → Nat → Nat → Bytes
  | 0, _, _ => []
  | n + 1, byteLimit, rangeOffset =>
      if byteLimit < maxLossRangeFieldBytes then []
      else
        let rangeStart := w.findNextLostElement rangeOffset
        if w.count ≤ rangeStart then
          if rangeOffset ≤ w.count then serializeHeaderNackLossRange (w.count - rangeOffset) 0
          else []
        else
          let rangeEnd := w.findNextGotElement (rangeStart + 1)
          let range := serializeHeaderNackLossRange (rangeStart - rangeOffset)
            (rangeEnd - rangeStart - 1)
          range ++ ackLoop w n (byteLimit - range.length) (rangeEnd + 1)

/-- `GenerateAcknowledgement` -/
def generateAcknowledgement (w : DecoderPacketWindow) (byteLimit : Nat) :
    SiameseResult × Bytes :=
  if w.count = 0 then (.needMoreData, [])
  else
    let header := serializeHeaderPacketNum (w.elementToColumn w.nextExpectedElement)
    if w.count ≤ w.nextExpectedElement then (.success, header)
    else
      let byteLimit := byteLimit - header.length
      (.success, header ++ w.ackLoop byteLimit byteLimit w.nextExpectedElement)

end DecoderPacketWindow

/-! ## Reading an ack -/

/-- The loss ranges that `EncoderAcknowledgementState` reads: those it has not read yet, the
column it is at, and how many columns are left of the range that it reads. -/
structure LossIterator where
  data : Bytes
  lossColumn : Nat
  lossCount : Nat := 0
  deriving DecidableEq

namespace LossIterator

/-- `DecodeNextRange` -/
def decodeNextRange (it : LossIterator) : Option LossIterator :=
  if it.data = [] then none
  else
    match deserializeHeaderNackLossRange (it.data ++ List.replicate paddingBytes 0) with
    | none => none
    | some (relativeStart, lossCountM1, lossRangeBytes) =>
        if it.data.length < lossRangeBytes then none
        else some {
          data := it.data.drop lossRangeBytes
          lossColumn := (it.lossColumn + relativeStart) % siamesePacketNumCount
          lossCount := lossCountM1 + 1 }

/-- `GetNextLossColumn` -/
def getNextLossColumn (it : LossIterator) : Option (Nat × LossIterator) :=
  let next (it : LossIterator) : Nat × LossIterator :=
    (it.lossColumn, { it with
      lossColumn := siamesePacketNumInc it.lossColumn
      lossCount := it.lossCount - 1 })
  if it.lossCount = 0 then
    match decodeNextRange { it with lossColumn := siamesePacketNumInc it.lossColumn } with
    | none => none
    | some it => some (next it)
  else some (next it)

/-- The columns that some calls of `GetNextLossColumn` yield. -/
def lossColumns : Nat → LossIterator → List Nat
  | 0, _ => []
  | n + 1, it =>
      match it.getNextLossColumn with
      | none => []
      | some (column, it) => column :: lossColumns n it

/-- `RestartLossIterator` on the loss ranges of an ack, and the columns that so many calls of
`GetNextLossColumn` yield then. -/
def readFrom (nextColumnExpected : Nat) (ranges : Bytes) (n : Nat) : List Nat :=
  match decodeNextRange { data := ranges, lossColumn := nextColumnExpected } with
  | none => []
  | some it => lossColumns n it

end LossIterator

end FecRelay
