import FecRelay.Codec.Serializers
import Mathlib.Data.List.GetD

/-!
# Numbers that are read back

The rest of `SiameseSerializers.h` that the decoder uses: the length in front of a packet, and
the footer of a recovery packet, which is read from its end.
-/

namespace FecRelay

open FecRelay.Base

/-! ## Lengths -/

/-- `DeserializeHeader_PacketLength`: the bytes that the length takes, and the length. -/
def deserializeHeaderPacketLength (buffer : Bytes) : Option (Nat × Nat) :=
  let byte (i : Nat) : Nat := (buffer.getD i 0).toNat
  if buffer.length < 1 then none
  else if byte 0 / 2 ^ 6 ≤ 1 then some (1, byte 0)
  else if byte 0 / 2 ^ 6 = 2 then
    if buffer.length < 2 then none else some (2, (byte 0 * 2 ^ 8 + byte 1) % 2 ^ 14)
  else if byte 0 / 2 ^ 5 = 6 then
    if buffer.length < 3 then none
    else some (3, (byte 0 * 2 ^ 16 + byte 1 * 2 ^ 8 + byte 2) % 2 ^ 21)
  else if buffer.length < 4 then none
  else some (4, (byte 0 * 2 ^ 24 + byte 1 * 2 ^ 16 + byte 2 * 2 ^ 8 + byte 3) % 2 ^ 29)

theorem serializeHeaderPacketLength_length (length : Nat) :
    0 < (serializeHeaderPacketLength length).length ∧
      (serializeHeaderPacketLength length).length ≤ 4 := by
  unfold serializeHeaderPacketLength
  split_ifs <;> simp

/-- A length is read back as it was written. -/
theorem deserializeHeaderPacketLength_serialize {length : Nat} (h : length ≤ 0x1fffffff)
    (rest : Bytes) : deserializeHeaderPacketLength (serializeHeaderPacketLength length ++ rest) =
      some ((serializeHeaderPacketLength length).length, length) := by
  unfold serializeHeaderPacketLength
  by_cases h₁ : length ≤ 0x7f
  · have hbyte : length % 256 = length := Nat.mod_eq_of_lt (by omega)
    have hmark : length / 64 ≤ 1 := by omega
    simp [h₁, deserializeHeaderPacketLength, hbyte, hmark]
  by_cases h₂ : length ≤ 0x3fff
  · have hbyte : (128 + length / 256) % 256 = 128 + length / 256 := Nat.mod_eq_of_lt (by omega)
    have hmark : (128 + length / 256) / 64 = 2 := by omega
    have hvalue : ((128 + length / 256) * 256 + length % 256) % 16384 = length := by omega
    simp [h₁, h₂, deserializeHeaderPacketLength, hbyte, hmark, hvalue]
  by_cases h₃ : length ≤ 0x1fffff
  · have hbyte : (192 + length / 65536) % 256 = 192 + length / 65536 := Nat.mod_eq_of_lt (by omega)
    have hmark : (192 + length / 65536) / 64 = 3 := by omega
    have hthree : (192 + length / 65536) / 32 = 6 := by omega
    have hvalue : ((192 + length / 65536) * 65536 + length / 256 % 256 * 256 + length % 256) %
        2097152 = length := by omega
    simp [h₁, h₂, h₃, deserializeHeaderPacketLength, hbyte, hmark, hthree, hvalue]
  · have hbyte : (224 + length / 16777216) % 256 = 224 + length / 16777216 :=
      Nat.mod_eq_of_lt (by omega)
    have hmark : (224 + length / 16777216) / 64 = 3 := by omega
    have hfour : ¬(224 + length / 16777216) / 32 = 6 := by omega
    have hvalue : ((224 + length / 16777216) * 16777216 + length / 65536 % 256 * 65536 +
        length / 256 % 256 * 256 + length % 256) % 536870912 = length := by omega
    simp [h₁, h₂, h₃, deserializeHeaderPacketLength, hbyte, hmark, hfour, hvalue]

/-! ## Footers -/

/-- A byte of a buffer, counted from its end. -/
def byteFromEnd (buffer : Bytes) (i : Nat) : Nat := (buffer.reverse.getD i 0).toNat

/-- `DeserializeFooter_PacketNum`: the packet number, and the bytes that it takes. -/
def deserializeFooterPacketNum (buffer : Bytes) : Option (Nat × Nat) :=
  let byte := byteFromEnd buffer
  if buffer.length < 1 then none
  else if byte 0 / 2 ^ 6 ≤ 1 then some (byte 0, 1)
  else if buffer.length < byte 0 / 2 ^ 6 then none
  else if byte 0 / 2 ^ 6 = 2 then some ((byte 0 * 2 ^ 8 + byte 1) % 2 ^ 14, 2)
  else some ((byte 0 * 2 ^ 16 + byte 1 * 2 ^ 8 + byte 2) % 2 ^ 22, 3)

/-- `DeserializeFooter_PacketCount` -/
def deserializeFooterPacketCount (buffer : Bytes) : Option (Nat × Nat) :=
  let byte := byteFromEnd buffer
  if buffer.length < 1 then none
  else if byte 0 / 2 ^ 7 = 0 then some (byte 0, 1)
  else if buffer.length < 2 then none
  else some ((byte 0 * 2 ^ 8 + byte 1) % 2 ^ 15, 2)

/-- `DeserializeFooter_RecoveryMetadata`: the metadata, its row, and the bytes that they take. -/
def deserializeFooterRecoveryMetadata (buffer : Bytes) : Option (RecoveryMetadata × Nat × Nat) :=
  match deserializeFooterPacketCount buffer with
  | none => none
  | some (sumCountM1, n₁) =>
  match deserializeFooterPacketNum (buffer.take (buffer.length - n₁)) with
  | none => none
  | some (columnStart, n₂) =>
  if sumCountM1 + 1 ≤ 1 then
    some ({ sumCount := sumCountM1 + 1, ldpcCount := 1, columnStart := columnStart }, 0, n₁ + n₂)
  else
    let buffer := buffer.take (buffer.length - n₁ - n₂)
    match deserializeFooterPacketCount buffer with
    | none => none
    | some (ldpcCount, n₃) =>
    if sumCountM1 + 1 < ldpcCount then none
    else if buffer.length - n₃ < 1 then none
    else some ({ sumCount := sumCountM1 + 1, ldpcCount := ldpcCount, columnStart := columnStart },
      byteFromEnd buffer n₃, n₁ + n₂ + n₃ + 1)

theorem byteFromEnd_lt (buffer : Bytes) (i : Nat) : byteFromEnd buffer i < 2 ^ 8 :=
  UInt8.toNat_lt _

theorem deserializeFooterPacketNum_serialize {packetNum : Nat}
    (h : packetNum < siamesePacketNumCount) (body : Bytes) :
    deserializeFooterPacketNum (body ++ serializeFooterPacketNum packetNum) =
      some (packetNum, (serializeFooterPacketNum packetNum).length) := by
  unfold siamesePacketNumCount at h
  unfold serializeFooterPacketNum
  by_cases h₁ : packetNum ≤ 0x7f
  · have hbyte : packetNum % 256 = packetNum := Nat.mod_eq_of_lt (by omega)
    have hmark : packetNum / 64 ≤ 1 := by omega
    simp [h₁, deserializeFooterPacketNum, byteFromEnd, hbyte, hmark]
  by_cases h₂ : packetNum ≤ 0x3fff
  · have hbyte : (128 + packetNum / 256) % 256 = 128 + packetNum / 256 :=
      Nat.mod_eq_of_lt (by omega)
    have hmark : (128 + packetNum / 256) / 64 = 2 := by omega
    have hvalue : ((128 + packetNum / 256) * 256 + packetNum % 256) % 16384 = packetNum := by omega
    simp [h₁, h₂, deserializeFooterPacketNum, byteFromEnd, hbyte, hmark, hvalue]
  · have hbyte : (192 + packetNum / 65536) % 256 = 192 + packetNum / 65536 :=
      Nat.mod_eq_of_lt (by omega)
    have hmark : (192 + packetNum / 65536) / 64 = 3 := by omega
    have hvalue : ((192 + packetNum / 65536) * 65536 + packetNum / 256 % 256 * 256 +
        packetNum % 256) % 4194304 = packetNum := by omega
    simp [h₁, h₂, deserializeFooterPacketNum, byteFromEnd, hbyte, hmark, hvalue]

theorem deserializeFooterPacketCount_serialize {count : Nat} (h : count < 2 ^ 15) (body : Bytes) :
    deserializeFooterPacketCount (body ++ serializeFooterPacketCount count) =
      some (count, (serializeFooterPacketCount count).length) := by
  unfold serializeFooterPacketCount
  by_cases h₁ : count ≤ 127
  · have hbyte : count % 256 = count := Nat.mod_eq_of_lt (by omega)
    have hmark : count < 128 := by omega
    simp [h₁, deserializeFooterPacketCount, byteFromEnd, hbyte, hmark]
  · have hbyte : (128 + count / 256) % 256 = 128 + count / 256 := Nat.mod_eq_of_lt (by omega)
    have hvalue : ((128 + count / 256) * 256 + count % 256) % 32768 = count := by omega
    simp [h₁, deserializeFooterPacketCount, byteFromEnd, hbyte, hvalue]

/-- A field at the end is taken off the buffer. -/
theorem take_append_sub (body field : Bytes) :
    (body ++ field).take ((body ++ field).length - field.length) = body := by
  rw [List.length_append, Nat.add_sub_cancel, List.take_left]

/-- What `SerializeFooter_RecoveryMetadata` is given. A packet that is alone has no row. -/
structure RecoveryMetadata.Valid (m : RecoveryMetadata) (row : Nat) : Prop where
  one_le : 1 ≤ m.sumCount
  sumCount_le : m.sumCount ≤ 2 ^ 15
  ldpcCount_le : m.ldpcCount ≤ m.sumCount
  ldpcCount_lt : m.ldpcCount < 2 ^ 15
  columnStart_lt : m.columnStart < siamesePacketNumCount
  row_lt : row < 2 ^ 8
  alone : m.sumCount = 1 → m.ldpcCount = 1 ∧ row = 0

theorem deserializeFooterRecoveryMetadata_serialize {m : RecoveryMetadata} {row : Nat}
    (h : m.Valid row) (body : Bytes) :
    deserializeFooterRecoveryMetadata
        (body ++ serializeFooterRecoveryMetadata m (UInt8.ofNat row)) =
      some (m, row, footerBytes m) := by
  obtain ⟨hone, hsum, hldpc, hlt, hstart, hrow, halone⟩ := h
  have hback : m.sumCount - 1 + 1 = m.sumCount := by omega
  have hlength : footerBytes m =
      (serializeFooterRecoveryMetadata m (UInt8.ofNat row)).length := by simp
  rw [hlength]
  unfold serializeFooterRecoveryMetadata deserializeFooterRecoveryMetadata
  rw [← List.append_assoc, ← List.append_assoc,
    deserializeFooterPacketCount_serialize (by omega)]
  dsimp only
  rw [take_append_sub, deserializeFooterPacketNum_serialize hstart]
  dsimp only
  by_cases hmany : 1 < m.sumCount
  · rw [hback, if_neg (by omega), if_pos hmany]
    have htaken : ∀ count num : Bytes, ((body ++ UInt8.ofNat row ::
        serializeFooterPacketCount m.ldpcCount ++ num) ++ count).take
          (((body ++ UInt8.ofNat row :: serializeFooterPacketCount m.ldpcCount ++ num) ++
            count).length - count.length - num.length) =
        body ++ [UInt8.ofNat row] ++ serializeFooterPacketCount m.ldpcCount := by
      intro count num
      rw [List.length_append, Nat.add_sub_cancel, List.length_append, Nat.add_sub_cancel,
        List.append_assoc, List.take_left]
      simp
    rw [htaken, deserializeFooterPacketCount_serialize hlt]
    dsimp only
    have hrowbyte : byteFromEnd (body ++ [UInt8.ofNat row] ++
        serializeFooterPacketCount m.ldpcCount) (serializeFooterPacketCount m.ldpcCount).length =
        row := by
      unfold byteFromEnd
      rw [List.reverse_append, List.getD_append_right _ _ _ _ (by simp)]
      simpa using hrow
    rw [if_neg (by omega), if_neg (by rw [List.length_append, Nat.add_sub_cancel]; simp),
      hrowbyte]
    simp only [List.length_append, List.length_cons]
    congr 3
    omega
  · have hsumone : m.sumCount = 1 := by omega
    obtain ⟨hldpcone, hrowzero⟩ := halone hsumone
    rw [hback, if_pos (by omega), if_neg hmany, hrowzero, ← hldpcone]
    simp [Nat.add_comm]

/-- What is read of a number has so many bits, and the bytes that it took were there. -/
theorem deserializeFooterPacketNum_le {buffer : Bytes} {packetNum n : Nat}
    (h : deserializeFooterPacketNum buffer = some (packetNum, n)) :
    packetNum < siamesePacketNumCount ∧ n ≤ buffer.length := by
  have hbyte := byteFromEnd_lt buffer 0
  unfold siamesePacketNumCount
  unfold deserializeFooterPacketNum at h
  dsimp only at h
  split_ifs at h <;> simp only [Option.some.injEq, Prod.mk.injEq] at h <;> omega

theorem deserializeFooterPacketCount_le {buffer : Bytes} {count n : Nat}
    (h : deserializeFooterPacketCount buffer = some (count, n)) :
    count < 2 ^ 15 ∧ n ≤ buffer.length := by
  have hbyte := byteFromEnd_lt buffer 0
  unfold deserializeFooterPacketCount at h
  dsimp only at h
  split_ifs at h <;> simp only [Option.some.injEq, Prod.mk.injEq] at h <;> omega

theorem valid_of_deserialize {buffer : Bytes} {m : RecoveryMetadata} {row n : Nat}
    (h : deserializeFooterRecoveryMetadata buffer = some (m, row, n)) :
    m.Valid row ∧ n ≤ buffer.length := by
  unfold deserializeFooterRecoveryMetadata at h
  split at h
  · cases h
  next sumCountM1 n₁ hsum =>
  obtain ⟨hsumlt, hn₁⟩ := deserializeFooterPacketCount_le hsum
  split at h
  · cases h
  next columnStart n₂ hnum =>
  obtain ⟨hnumlt, hn₂⟩ := deserializeFooterPacketNum_le hnum
  rw [List.length_take] at hn₂
  split at h
  next hone =>
    cases h
    refine ⟨⟨Nat.le_add_left _ _, ?_, Nat.le_add_left _ _, (by decide : 1 < 2 ^ 15), hnumlt,
      (by decide : 0 < 2 ^ 8),
      fun _ => ⟨rfl, rfl⟩⟩, by omega⟩
    show sumCountM1 + 1 ≤ _
    omega
  next hmany =>
    dsimp only at h
    split at h
    · cases h
    next ldpcCount n₃ hldpc =>
    obtain ⟨hldpclt, hn₃⟩ := deserializeFooterPacketCount_le hldpc
    rw [List.length_take] at hn₃
    split at h
    · cases h
    next hle =>
    split at h
    · cases h
    next hrow =>
    rw [List.length_take] at hrow
    cases h
    refine ⟨⟨Nat.le_add_left _ _, ?_, not_lt.mp hle, hldpclt, hnumlt, byteFromEnd_lt _ _,
      fun halone => absurd halone.le hmany⟩, by omega⟩
    show sumCountM1 + 1 ≤ _
    omega

/-- **A footer is read back from the end of a packet**, whatever comes before it, and nothing
that is not a valid footer is accepted. -/
theorem footer_spec :
    (∀ (m : RecoveryMetadata) (row : Nat) (body : Bytes), m.Valid row →
      deserializeFooterRecoveryMetadata
          (body ++ serializeFooterRecoveryMetadata m (UInt8.ofNat row)) =
        some (m, row, footerBytes m)) ∧
    ∀ (buffer : Bytes) (m : RecoveryMetadata) (row n : Nat),
      deserializeFooterRecoveryMetadata buffer = some (m, row, n) →
        m.Valid row ∧ n ≤ buffer.length :=
  ⟨fun _ _ body h => deserializeFooterRecoveryMetadata_serialize h body,
    fun _ _ _ _ h => valid_of_deserialize h⟩

/-- The footer of a Cauchy row, and four bytes that are none. -/
theorem footer_spec_row : deserializeFooterRecoveryMetadata ([7, 9] ++
      serializeFooterRecoveryMetadata ⟨64, 64, 4194303⟩ (UInt8.ofNat 3)) =
        some (⟨64, 64, 4194303⟩, 3, 6) ∧
    ¬∃ m row n, deserializeFooterRecoveryMetadata [1, 2, 1, 1] = some (m, row, n) ∧
      ¬m.ldpcCount ≤ m.sumCount := by
  refine ⟨footer_spec.1 ⟨64, 64, 4194303⟩ 3 [7, 9] ⟨by decide, by decide, by decide, by decide,
    by decide, by decide, by decide⟩, ?_⟩
  rintro ⟨m, row, n, hread, hmore⟩
  exact hmore (footer_spec.2 _ _ _ _ hread).1.ldpcCount_le

end FecRelay
