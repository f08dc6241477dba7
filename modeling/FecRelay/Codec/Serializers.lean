import FecRelay.Codec.Siamese

/-!
# Numbers in the messages of the stream codec

The part of `SiameseSerializers.h` that the encoder and its recovery packets use. A
number takes one to four bytes, and the two highest bits of its first byte, or of its
last byte in a footer, say how many. The bits of a number are disjoint from those, so
an `|` of both is written as a sum here.
-/

namespace FecRelay

open FecRelay.Base

/-! ## Headers -/

/-- `SerializeHeader_PacketNum`. -/
def serializeHeaderPacketNum (packetNum : Nat) : Bytes :=
  if packetNum ≤ 0x7f then [UInt8.ofNat packetNum]
  else if packetNum ≤ 0x3fff then
    [UInt8.ofNat (0x80 + packetNum / 2 ^ 8), UInt8.ofNat packetNum]
  else
    [UInt8.ofNat (0xC0 + packetNum / 2 ^ 16), UInt8.ofNat (packetNum / 2 ^ 8),
      UInt8.ofNat packetNum]

theorem serializeHeaderPacketNum_length_le (packetNum : Nat) :
    (serializeHeaderPacketNum packetNum).length ≤ 3 := by
  unfold serializeHeaderPacketNum
  split
  · simp
  · split <;> simp

/-- `DeserializeHeader_PacketNum`: the packet number and the bytes after it. -/
def deserializeHeaderPacketNum : Bytes → Option (Nat × Bytes)
  | [] => none
  | b :: rest =>
      if b.toNat / 2 ^ 6 ≤ 1 then some (b.toNat, rest)
      else if b.toNat / 2 ^ 6 = 2 then
        match rest with
        | c :: rest => some ((b.toNat * 2 ^ 8 + c.toNat) % 2 ^ 14, rest)
        | _ => none
      else
        match rest with
        | c :: d :: rest =>
            some ((b.toNat * 2 ^ 16 + c.toNat * 2 ^ 8 + d.toNat) % 2 ^ 22, rest)
        | _ => none

/-- A packet number is read back as it was written. -/
theorem deserializeHeaderPacketNum_serialize {packetNum : Nat}
    (h : packetNum < siamesePacketNumCount) (rest : Bytes) :
    deserializeHeaderPacketNum (serializeHeaderPacketNum packetNum ++ rest) =
      some (packetNum, rest) := by
  unfold siamesePacketNumCount at h
  unfold serializeHeaderPacketNum
  by_cases hone : packetNum ≤ 0x7f
  · have hbyte : packetNum % 256 = packetNum := Nat.mod_eq_of_lt (by omega)
    have hmark : packetNum / 64 ≤ 1 := by omega
    simp [hone, deserializeHeaderPacketNum, hbyte, hmark]
  by_cases htwo : packetNum ≤ 0x3fff
  · have hbyte : (128 + packetNum / 256) % 256 = 128 + packetNum / 256 :=
      Nat.mod_eq_of_lt (by omega)
    have hmark : (128 + packetNum / 256) / 64 = 2 := by omega
    have hvalue : ((128 + packetNum / 256) * 256 + packetNum % 256) % 16384 = packetNum := by
      omega
    simp [hone, htwo, deserializeHeaderPacketNum, hbyte, hmark, hvalue]
  · have hbyte : (192 + packetNum / 65536) % 256 = 192 + packetNum / 65536 :=
      Nat.mod_eq_of_lt (by omega)
    have hmark : (192 + packetNum / 65536) / 64 = 3 := by omega
    have hvalue : ((192 + packetNum / 65536) * 65536 + packetNum / 256 % 256 * 256 +
        packetNum % 256) % 4194304 = packetNum := by
      omega
    simp [hone, htwo, deserializeHeaderPacketNum, hbyte, hmark, hvalue]

/-- `SerializeHeader_PacketLength`. -/
def serializeHeaderPacketLength (length : Nat) : Bytes :=
  if length ≤ 0x7f then [UInt8.ofNat length]
  else if length ≤ 0x3fff then [UInt8.ofNat (0x80 + length / 2 ^ 8), UInt8.ofNat length]
  else if length ≤ 0x1fffff then
    [UInt8.ofNat (0xC0 + length / 2 ^ 16), UInt8.ofNat (length / 2 ^ 8), UInt8.ofNat length]
  else
    [UInt8.ofNat (0xE0 + length / 2 ^ 24), UInt8.ofNat (length / 2 ^ 16),
      UInt8.ofNat (length / 2 ^ 8), UInt8.ofNat length]

theorem serializeHeaderPacketLength_length_le {length : Nat} (h : length ≤ 0x3fff) :
    (serializeHeaderPacketLength length).length ≤ 2 := by
  unfold serializeHeaderPacketLength
  by_cases hone : length ≤ 0x7f
  · simp [hone]
  · simp [hone, h]

/-! ## Footers -/

/-- `SerializeFooter_PacketNum`. -/
def serializeFooterPacketNum (packetNum : Nat) : Bytes :=
  if packetNum ≤ 0x7f then [UInt8.ofNat packetNum]
  else if packetNum ≤ 0x3fff then
    [UInt8.ofNat packetNum, UInt8.ofNat (0x80 + packetNum / 2 ^ 8)]
  else
    [UInt8.ofNat packetNum, UInt8.ofNat (packetNum / 2 ^ 8),
      UInt8.ofNat (0xC0 + packetNum / 2 ^ 16)]

/-- `SerializeFooter_PacketCount`. -/
def serializeFooterPacketCount (count : Nat) : Bytes :=
  if count ≤ 127 then [UInt8.ofNat count]
  else [UInt8.ofNat count, UInt8.ofNat (0x80 + count / 2 ^ 8)]

/-- `RecoveryMetadata` without its row, which is one byte whatever it is. -/
structure RecoveryMetadata where
  sumCount : Nat
  ldpcCount : Nat
  columnStart : Nat
  deriving DecidableEq, Repr

/-- `SerializeFooter_RecoveryMetadata`. -/
def serializeFooterRecoveryMetadata (metadata : RecoveryMetadata) (row : UInt8) : Bytes :=
  (if 1 < metadata.sumCount then row :: serializeFooterPacketCount metadata.ldpcCount else []) ++
    serializeFooterPacketNum metadata.columnStart ++
    serializeFooterPacketCount (metadata.sumCount - 1)

/-- The bytes that a footer takes. -/
def footerBytes (metadata : RecoveryMetadata) : Nat :=
  (serializeFooterRecoveryMetadata metadata 0).length

@[simp] theorem serializeFooterRecoveryMetadata_length (metadata : RecoveryMetadata)
    (row : UInt8) :
    (serializeFooterRecoveryMetadata metadata row).length = footerBytes metadata := by
  unfold footerBytes serializeFooterRecoveryMetadata
  split <;> simp

@[simp] theorem serializeFooterPacketNum_length (packetNum : Nat) :
    (serializeFooterPacketNum packetNum).length =
      if packetNum ≤ 0x7f then 1 else if packetNum ≤ 0x3fff then 2 else 3 := by
  unfold serializeFooterPacketNum
  split
  · rfl
  · split <;> rfl

@[simp] theorem serializeFooterPacketCount_length (count : Nat) :
    (serializeFooterPacketCount count).length = if count ≤ 127 then 1 else 2 := by
  unfold serializeFooterPacketCount
  split <;> rfl

/-- A footer has the first column and one less than the count of the sum, after the row and
the count of unacknowledged packets if more than one packet is covered. -/
theorem footerBytes_eq (metadata : RecoveryMetadata) : footerBytes metadata =
    (if 1 < metadata.sumCount then 1 + if metadata.ldpcCount ≤ 127 then 1 else 2 else 0) +
      (if metadata.columnStart ≤ 0x7f then 1 else if metadata.columnStart ≤ 0x3fff then 2 else 3) +
      if metadata.sumCount - 1 ≤ 127 then 1 else 2 := by
  unfold footerBytes serializeFooterRecoveryMetadata
  rw [List.length_append, List.length_append, serializeFooterPacketNum_length,
    serializeFooterPacketCount_length]
  by_cases hmany : 1 < metadata.sumCount
  · rw [if_pos hmany, if_pos hmany, List.length_cons, serializeFooterPacketCount_length,
      Nat.add_comm _ 1]
  · rw [if_neg hmany, if_neg hmany]
    rfl

/-- `kMaxRecoveryMetadataBytes`: no footer is longer than eight bytes. -/
theorem footerBytes_le (metadata : RecoveryMetadata) : footerBytes metadata ≤ 8 := by
  rw [footerBytes_eq]
  repeat' split
  all_goals omega

end FecRelay
