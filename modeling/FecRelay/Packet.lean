import FecRelay.Utility

/-!
# Packet headers and the bytes they are laid out as

The header structs of `packet.hpp` are overlaid on the datagram's bytes by a
`reinterpret_cast`, so on the little-endian target a field is four bytes, least
significant first. `header` checks the size before it casts; `payload` is what
follows the header.
-/

namespace FecRelay

open FecRelay.Base

/-! ## Little-endian words -/

/-- The four bytes of a `std::uint32_t`. -/
def store32 (x : UInt32) : Bytes :=
  [UInt8.ofNat x.toNat, UInt8.ofNat (x.toNat / 2 ^ 8), UInt8.ofNat (x.toNat / 2 ^ 16),
    UInt8.ofNat (x.toNat / 2 ^ 24)]

/-- The `std::uint32_t` at the front of some bytes. -/
def load32 : Bytes → UInt32
  | a :: b :: c :: d :: _ =>
      UInt32.ofNat (a.toNat + 2 ^ 8 * b.toNat + 2 ^ 16 * c.toNat + 2 ^ 24 * d.toNat)
  | _ => 0

@[simp] theorem store32_length (x : UInt32) : (store32 x).length = 4 := rfl

@[simp] theorem load32_store32 (x : UInt32) (rest : Bytes) :
    load32 (store32 x ++ rest) = x := by
  have hx : x.toNat < 2 ^ 32 := x.toNat_lt
  apply UInt32.toNat_inj.mp
  simp only [store32, load32, List.cons_append, List.nil_append, UInt8.toNat_ofNat',
    UInt32.toNat_ofNat']
  omega

/-- Consecutive words, as the fields of a struct lie in memory. -/
def storeWords (ws : List UInt32) : Bytes := ws.flatMap store32

/-- The word at index `i`, which starts at byte `4 * i`. -/
def word (data : Bytes) (i : Nat) : UInt32 := load32 (data.drop (4 * i))

theorem storeWords_length (ws : List UInt32) : (storeWords ws).length = 4 * ws.length := by
  induction ws with
  | nil => rfl
  | cons w ws ih =>
      show (store32 w ++ storeWords ws).length = 4 * (ws.length + 1)
      rw [List.length_append, ih, store32_length]
      omega

/-- Every word is read back from its own place. -/
theorem word_storeWords (ws : List UInt32) (payload : Bytes) :
    ∀ i (h : i < ws.length), word (storeWords ws ++ payload) i = ws[i] := by
  induction ws with
  | nil => intro i h; exact absurd h (by simp)
  | cons w ws ih =>
      intro i h
      cases i with
      | zero =>
          show load32 (store32 w ++ storeWords ws ++ payload) = w
          rw [List.append_assoc, load32_store32]
      | succ i =>
          have hi : i < ws.length := by simpa using h
          have hrest : word (storeWords ws ++ payload) i = ws[i] := ih i hi
          show load32 ((store32 w ++ storeWords ws ++ payload).drop (4 * (i + 1))) = ws[i]
          rw [show 4 * (i + 1) = 4 + 4 * i by omega, ← List.drop_drop, List.append_assoc]
          exact hrest

/-! ## Headers -/

/-- `PacketHeader::PacketType`, lowest priority first. -/
inductive PacketType where
  | stream
  | streamAck
  | block
  | control
  deriving DecidableEq, Repr

namespace PacketType

/-- The underlying value of the enumerator. -/
def code : PacketType → UInt32
  | stream => 0
  | streamAck => 1
  | block => 2
  | control => 3

/-- The enumerator a stored value stands for, if any. -/
def ofCode (x : UInt32) : Option PacketType :=
  if x = 0 then some stream
  else if x = 1 then some streamAck
  else if x = 2 then some block
  else if x = 3 then some control
  else none

@[simp] theorem ofCode_code (t : PacketType) : ofCode t.code = some t := by
  cases t <;> rfl

theorem code_of_ofCode {x : UInt32} {t : PacketType} (h : ofCode x = some t) : x = t.code := by
  unfold ofCode at h
  split_ifs at h <;> cases h <;> assumption

theorem code_injective {s t : PacketType} (h : s.code = t.code) : s = t := by
  have := congrArg ofCode h
  simpa using this

theorem code_lt (t : PacketType) : t.code.toNat < 4 := by
  cases t <;> decide

end PacketType

structure PacketHeader where
  version : UInt32
  packetType : UInt32
  deriving DecidableEq, Repr

structure BlockPacketHeader extends PacketHeader where
  channelId : UInt32
  blockId : UInt32
  blockSize : UInt32
  packetIndex : UInt32
  deriving DecidableEq, Repr

structure StreamPacketHeader extends PacketHeader where
  channelId : UInt32
  packetIndex : UInt32
  deriving DecidableEq, Repr

structure StreamAckPacketHeader extends PacketHeader where
  channelId : UInt32
  deriving DecidableEq, Repr

structure ControlPacketHeader extends PacketHeader where
  action : UInt32
  channelId : UInt32
  kbps : UInt32
  deriving DecidableEq, Repr

/-- `ControlPacketHeader::Action::SUBSCRIBE`. -/
def actionSubscribe : UInt32 := 1

/-- How a header struct lies in memory: its fields in order, one word each, and
the struct that a view of those words is. -/
class PacketLayout (H : Type) where
  nFields : Nat
  fields : H → List UInt32
  view : Bytes → H
  fields_length : ∀ h, (fields h).length = nFields
  view_fields : ∀ h payload, view (storeWords (fields h) ++ payload) = h

instance : PacketLayout PacketHeader where
  nFields := 2
  fields h := [h.version, h.packetType]
  view data := ⟨word data 0, word data 1⟩
  fields_length _ := rfl
  view_fields h payload := by simp [word_storeWords]

instance : PacketLayout BlockPacketHeader where
  nFields := 6
  fields h := [h.version, h.packetType, h.channelId, h.blockId, h.blockSize, h.packetIndex]
  view data := ⟨⟨word data 0, word data 1⟩, word data 2, word data 3, word data 4, word data 5⟩
  fields_length _ := rfl
  view_fields h payload := by simp [word_storeWords]

instance : PacketLayout StreamPacketHeader where
  nFields := 4
  fields h := [h.version, h.packetType, h.channelId, h.packetIndex]
  view data := ⟨⟨word data 0, word data 1⟩, word data 2, word data 3⟩
  fields_length _ := rfl
  view_fields h payload := by simp [word_storeWords]

instance : PacketLayout StreamAckPacketHeader where
  nFields := 3
  fields h := [h.version, h.packetType, h.channelId]
  view data := ⟨⟨word data 0, word data 1⟩, word data 2⟩
  fields_length _ := rfl
  view_fields h payload := by simp [word_storeWords]

instance : PacketLayout ControlPacketHeader where
  nFields := 5
  fields h := [h.version, h.packetType, h.action, h.channelId, h.kbps]
  view data := ⟨⟨word data 0, word data 1⟩, word data 2, word data 3, word data 4⟩
  fields_length _ := rfl
  view_fields h payload := by simp [word_storeWords]

/-- `sizeof(Header)`. -/
def sizeOfHeader (H : Type) [PacketLayout H] : Nat := 4 * PacketLayout.nFields H

/-- The bytes of a header. -/
def storeHeader {H : Type} [PacketLayout H] (h : H) : Bytes := storeWords (PacketLayout.fields h)

theorem storeHeader_length {H : Type} [PacketLayout H] (h : H) :
    (storeHeader h).length = sizeOfHeader H := by
  unfold storeHeader sizeOfHeader
  rw [storeWords_length, PacketLayout.fields_length]

/-! ## Packets -/

namespace Packet

variable {H : Type} [PacketLayout H]

/-- `Packet(Header const& header, std::string_view payload)`. -/
def ofHeader (h : H) (payload : Bytes) : Bytes := storeHeader h ++ payload

/-- `Packet::make<BlockPacketHeader>`. -/
def makeBlock (payload : Bytes) (channelId blockId blockSize packetIndex : UInt32) : Bytes :=
  ofHeader (⟨⟨0, PacketType.block.code⟩, channelId, blockId, blockSize, packetIndex⟩ :
    BlockPacketHeader) payload

/-- `Packet::make<StreamPacketHeader>`. -/
def makeStream (payload : Bytes) (channelId packetIndex : UInt32) : Bytes :=
  ofHeader (⟨⟨0, PacketType.stream.code⟩, channelId, packetIndex⟩ : StreamPacketHeader) payload

/-- `Packet::make<StreamAckPacketHeader>`. -/
def makeStreamAck (payload : Bytes) (channelId : UInt32) : Bytes :=
  ofHeader (⟨⟨0, PacketType.streamAck.code⟩, channelId⟩ : StreamAckPacketHeader) payload

/-- `Packet::make<ControlPacketHeader>`. -/
def makeControl (payload : Bytes) (action channelId kbps : UInt32) : Bytes :=
  ofHeader (⟨⟨0, PacketType.control.code⟩, action, channelId, kbps⟩ : ControlPacketHeader)
    payload

/-- `header<Header>()`. -/
def header (H : Type) [PacketLayout H] (data : Bytes) : Checked H := do
  enforce (decide (sizeOfHeader H ≤ data.length)) "m_data.size() >= sizeof(Header)"
  pure (PacketLayout.view data)

/-- `data(offset)`, which may not start behind the end. -/
def dataFrom (data : Bytes) (offset : Nat) : Checked Bytes :=
  if offset ≤ data.length then .ok (data.drop offset) else .error .outOfBounds

/-- `payload<Header>()`. -/
def payload (H : Type) [PacketLayout H] (data : Bytes) : Checked Bytes :=
  dataFrom data (sizeOfHeader H)

theorem header_ok_iff {data : Bytes} {h : H} :
    header H data = .ok h ↔ sizeOfHeader H ≤ data.length ∧ PacketLayout.view data = h := by
  unfold header enforce
  by_cases hsize : sizeOfHeader H ≤ data.length
  · simp [hsize]
  · simp [hsize]

theorem payload_ok_iff {data rest : Bytes} :
    payload H data = .ok rest ↔
      sizeOfHeader H ≤ data.length ∧ data.drop (sizeOfHeader H) = rest := by
  unfold payload dataFrom
  by_cases hsize : sizeOfHeader H ≤ data.length <;> simp [hsize]

/-- A packet's header is read back as it was written. -/
@[simp] theorem ofHeader_length (h : H) (payload : Bytes) :
    (ofHeader h payload).length = sizeOfHeader H + payload.length := by
  rw [ofHeader, List.length_append, storeHeader_length]

@[simp] theorem header_ofHeader (h : H) (rest : Bytes) : header H (ofHeader h rest) = .ok h := by
  refine header_ok_iff.mpr ⟨?_, PacketLayout.view_fields h rest⟩
  rw [ofHeader_length]
  omega

/-- A packet's payload is read back as it was written. -/
@[simp] theorem payload_ofHeader (h : H) (rest : Bytes) :
    payload H (ofHeader h rest) = .ok rest := by
  refine payload_ok_iff.mpr ⟨?_, ?_⟩
  · rw [ofHeader_length]
    omega
  · rw [ofHeader, ← storeHeader_length h, List.drop_left]

/-- The `m_packet_index` field of a block packet. -/
def blockIndex (data : Bytes) : UInt32 :=
  (PacketLayout.view data : BlockPacketHeader).packetIndex

@[simp] theorem blockIndex_makeBlock (data : Bytes) (channelId blockId blockSize index : UInt32) :
    blockIndex (makeBlock data channelId blockId blockSize index) = index :=
  congrArg BlockPacketHeader.packetIndex (PacketLayout.view_fields
    (⟨⟨0, PacketType.block.code⟩, channelId, blockId, blockSize, index⟩ : BlockPacketHeader) data)

/-- The enumerator of a stored packet type as the `int` it is cast to. -/
def typeInt (h : PacketHeader) : Int := h.packetType.toInt32.toInt

/-- `operator <(Packet const& x, Packet const& y)`. -/
def less (x y : Bytes) : Checked Bool := do
  let hx ← header PacketHeader x
  let hy ← header PacketHeader y
  let d := typeInt hx - typeInt hy
  if d < 0 then
    return true
  if d > 0 then
    return false
  if hx.packetType = PacketType.block.code then
    let by_ ← header BlockPacketHeader y
    let bx ← header BlockPacketHeader x
    return by_.packetIndex < bx.packetIndex
  return false

end Packet

end FecRelay
