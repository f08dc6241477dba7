import FecRelay.Block
import FecRelay.Packet

/-!
# Blocks on the wire

`block_packet_range` makes the packets a block is sent in. How many it makes is the
number of original symbols times a redundancy, computed in floating point; the
model has the integer function of the number of symbols that this is, and
`redundancy` is that function for `REDUNDANCY`.
-/

namespace FecRelay

open FecRelay.Base

/-! ## The number of symbols -/

/-- An integer rounded to the 24 significant bits of a `float`, ties to even. -/
def roundToFloat (p : Nat) : Nat :=
  let unit := 2 ^ (Nat.log2 p + 1 - 24)
  let rest := p % unit
  let down := p - rest
  if 2 * rest < unit then down
  else if unit < 2 * rest then down + unit
  else if down / unit % 2 = 0 then down
  else down + unit

/-- `REDUNDANCY`, the `float` next to 1.3, is this many units of `2 ^ -23`. -/
def redundancyUnits : Nat := 10905190

/-- `n * REDUNDANCY + 0.5` as an `unsigned`: the product is a `float`, the sum a
`double`, and the conversion cuts off the fraction. -/
def redundancy (n : Nat) : Nat := (roundToFloat (n * redundancyUnits) + 2 ^ 22) / 2 ^ 23

/-- Rounding is off by less than one part in `2 ^ 23`. -/
theorem roundToFloat_close (p : Nat) : 2 ^ 23 * roundToFloat p ≤ 2 ^ 23 * p + p ∧
    2 ^ 23 * p ≤ 2 ^ 23 * roundToFloat p + p := by
  by_cases hsmall : p < 2 ^ 24
  · -- small integers are exact
    have hlog : Nat.log2 p < 24 := by
      by_cases hp : p = 0
      · rw [hp]
        decide
      · exact (Nat.log2_lt hp).mpr hsmall
    have hexact : roundToFloat p = p := by
      unfold roundToFloat
      rw [show Nat.log2 p + 1 - 24 = 0 by omega]
      simp [Nat.mod_one]
    rw [hexact]
    omega
  · -- the unit in the last place is small against `p`
    set unit := 2 ^ (Nat.log2 p + 1 - 24) with hunit
    have hp : p ≠ 0 := by omega
    have hlog : 24 ≤ Nat.log2 p := (Nat.le_log2 hp).mpr (not_lt.mp hsmall)
    have hscale : 2 ^ 23 * unit ≤ p := by
      rw [hunit, ← Nat.pow_add, show 23 + (Nat.log2 p + 1 - 24) = Nat.log2 p by omega]
      exact Nat.log2_self_le hp
    have hrest : p % unit < unit := Nat.mod_lt _ (by positivity)
    have hle : p % unit ≤ p := Nat.mod_le p unit
    have hnear : roundToFloat p = p - p % unit ∨ roundToFloat p = p - p % unit + unit := by
      unfold roundToFloat
      simp only [← hunit]
      split
      · exact Or.inl rfl
      split
      · exact Or.inr rfl
      split
      · exact Or.inl rfl
      · exact Or.inr rfl
    rcases hnear with h | h
    · rw [h]
      omega
    · rw [h]
      omega

/-- At least the original symbols are asked for. -/
theorem le_redundancy (n : Nat) : n ≤ redundancy n := by
  obtain ⟨_, hlow⟩ := roundToFloat_close (n * redundancyUnits)
  unfold redundancy
  unfold redundancyUnits at *
  omega

theorem redundancy_le (n : Nat) : redundancy n ≤ 2 * n + 1 := by
  obtain ⟨hhigh, _⟩ := roundToFloat_close (n * redundancyUnits)
  unfold redundancy
  unfold redundancyUnits at *
  omega

/-! ## Symbols -/

namespace Block

variable {W : Wirehair}

theorem slice_ok_iff {data bytes : Bytes} {first last : Nat} : slice data first last = .ok bytes ↔
    (first ≤ last ∧ last ≤ data.length) ∧ (data.take last).drop first = bytes := by
  unfold slice
  split
  · next hrange => simp [hrange]
  · next hrange => simp [hrange]

/-- No symbol is longer than a packet has room for. -/
theorem symbolData_length (hlaw : W.EncodesWithin) {b : Block W} {index : Nat} {data : Bytes}
    (h : b.symbolData index = .ok data) : data.length ≤ maxBlockPacketSize := by
  unfold symbolData at h
  split at h
  · next hindex =>
      -- the end of the symbol may wrap, and is then before its start
      obtain ⟨hrange, rfl⟩ := slice_ok_iff.mp h
      have hcount : b.nOriginal * maxBlockPacketSize < 2 ^ 32 :=
        lt_of_le_of_lt (Nat.div_mul_le_self _ _) (u32_lt _)
      have hstart : u32 (index * maxBlockPacketSize) = index * maxBlockPacketSize :=
        u32_of_lt (lt_of_le_of_lt (Nat.mul_le_mul_right _ hindex.le) hcount)
      have hend : u32 ((index + 1) * maxBlockPacketSize) ≤ (index + 1) * maxBlockPacketSize :=
        Nat.mod_le _ _
      have hlast : min b.blockSize (u32 ((index + 1) * maxBlockPacketSize)) ≤
          index * maxBlockPacketSize + maxBlockPacketSize :=
        le_trans (Nat.min_le_right _ _) (hend.trans (Nat.succ_mul _ _).le)
      rw [hstart, List.length_drop, List.length_take]
      omega
  · unfold BlockFec.getSymbolData at h
    by_cases hsuccess : (W.encode b.fec.wirehair index maxBlockPacketSize).1 = .success
    · simp only [decide_eq_true hsuccess, enforce_true] at h
      cases h
      exact hlaw _ _ _ hsuccess
    · simp only [decide_eq_false hsuccess, enforce_false] at h
      cases h

theorem skipSeen_lt {seen : List Bool} : ∀ (rounds : Nat) {j i : Nat}, j < 2 ^ 32 →
    skipSeen seen rounds j = .ok i → i < 2 ^ 32 := by
  intro rounds
  induction rounds with
  | zero => intro j i _ h; cases h
  | succ rounds ih =>
      intro j i hj h
      rw [skipSeen] at h
      split at h
      · exact ih (u32_lt _) h
      · cases h
        exact hj

/-- What iterating yields are symbols of the block under their indices. -/
theorem unseenRange_sound {b : Block W} : ∀ (n : Nat) {j j' : Nat}
    {symbols : List (Bytes × Nat)}, j < 2 ^ 32 → b.unseenRange n j = .ok symbols j' →
    ∀ symbol ∈ symbols, symbol.2 < 2 ^ 32 ∧ b.symbolData symbol.2 = .ok symbol.1 := by
  intro n
  induction n with
  | zero =>
      intro j j' symbols _ h
      obtain ⟨rfl, -⟩ := Method.pure_ok_iff.mp h
      exact fun symbol hsymbol => absurd hsymbol List.not_mem_nil
  | succ n ih =>
      intro j j' symbols hj h
      obtain ⟨first, j₁, hfirst, h⟩ := Method.bind_ok_iff.mp h
      obtain ⟨rest, j₂, hrest, h⟩ := Method.bind_ok_iff.mp h
      obtain ⟨rfl, -⟩ := Method.pure_ok_iff.mp h
      obtain ⟨start, j₃, hstart, hfirst⟩ := Method.bind_ok_iff.mp hfirst
      cases hstart
      obtain ⟨index, hindex, hfirst⟩ := Method.lift_bind_ok_iff.mp hfirst
      obtain ⟨_, j₄, hset, hfirst⟩ := Method.bind_ok_iff.mp hfirst
      cases hset
      obtain ⟨data, hdata, hfirst⟩ := Method.lift_bind_ok_iff.mp hfirst
      obtain ⟨rfl, hlast⟩ := Method.pure_ok_iff.mp hfirst
      intro symbol hsymbol
      rcases List.mem_cons.mp hsymbol with rfl | hsymbol
      · -- what `generate` returned is the data of its symbol
        exact ⟨skipSeen_lt _ hj hindex, hdata⟩
      · exact ih (hlast ▸ u32_lt _) hrest symbol hsymbol

theorem unseenRange_length (hlaw : W.EncodesWithin) {b : Block W} (n : Nat) {j' : Nat}
    {symbols : List (Bytes × Nat)} (h : b.unseenRange n 0 = .ok symbols j') :
    ∀ symbol ∈ symbols, symbol.1.length ≤ maxBlockPacketSize :=
  fun symbol hsymbol => symbolData_length hlaw (unseenRange_sound n (by decide) h symbol hsymbol).2

end Block

/-! ## Packets -/

/-- `block_packet_range(block, channel_id, block_id, redundancy)`, iterated to its end. -/
def blockPacketRange {W : Wirehair} (block : Block W) (channelId blockId : UInt32)
    (redundancy : Nat → Nat) : Checked (List Bytes) :=
  match block.unseenRange (u32 (redundancy block.nOriginal)) 0 with
  | .error e _ => .error e
  | .ok symbols _ => .ok (symbols.map fun symbol =>
      Packet.makeBlock symbol.1 channelId blockId (UInt32.ofNat block.blockSize)
        (UInt32.ofNat symbol.2))

/-- The packets are made of what iterating yields. -/
theorem blockPacketRange_ok {W : Wirehair} {block : Block W} {channelId blockId : UInt32}
    {redundancy : Nat → Nat} {packets : List Bytes}
    (h : blockPacketRange block channelId blockId redundancy = .ok packets) :
    ∃ symbols next, block.unseenRange (u32 (redundancy block.nOriginal)) 0 = .ok symbols next ∧
      packets = symbols.map fun symbol => Packet.makeBlock symbol.1 channelId blockId
        (UInt32.ofNat block.blockSize) (UInt32.ofNat symbol.2) := by
  unfold blockPacketRange at h
  cases hrange : block.unseenRange (u32 (redundancy block.nOriginal)) 0 with
  | error e next =>
      rw [hrange] at h
      cases h
  | ok symbols next =>
      rw [hrange] at h
      cases h
      exact ⟨symbols, next, rfl, rfl⟩

/-- Whatever the symbols are, the packets are packets of the block. -/
theorem blockPacketRange_mem {W : Wirehair} {block : Block W} {channelId blockId : UInt32}
    {redundancy : Nat → Nat} {packets : List Bytes}
    (h : blockPacketRange block channelId blockId redundancy = .ok packets) :
    ∀ data ∈ packets, ∃ symbol : Bytes × Nat, data = Packet.makeBlock symbol.1 channelId blockId
      (UInt32.ofNat block.blockSize) (UInt32.ofNat symbol.2) := by
  intro data hdata
  obtain ⟨symbols, next, -, rfl⟩ := blockPacketRange_ok h
  obtain ⟨symbol, _, rfl⟩ := List.mem_map.mp hdata
  exact ⟨symbol, rfl⟩

/-- Packets of a block fit. -/
theorem blockPacketRange_length {W : Wirehair} (hlaw : W.EncodesWithin) {block : Block W}
    {channelId blockId : UInt32} {redundancy : Nat → Nat} {packets : List Bytes}
    (h : blockPacketRange block channelId blockId redundancy = .ok packets) :
    ∀ data ∈ packets, data.length ≤ maxPacketSize := by
  intro data hdata
  obtain ⟨symbols, next, hrange, rfl⟩ := blockPacketRange_ok h
  obtain ⟨symbol, hsymbol, rfl⟩ := List.mem_map.mp hdata
  have hsize := Block.unseenRange_length hlaw _ hrange symbol hsymbol
  unfold Packet.makeBlock
  rw [Packet.ofHeader_length]
  exact Nat.add_le_add_left hsize _

/-- The packets are made of the symbols that the generator yields. -/
theorem blockPacketRange_yields {W : Wirehair} {block : Block W} {channelId blockId : UInt32}
    {redundancy : Nat → Nat} {packets : List Bytes}
    (h : blockPacketRange block channelId blockId redundancy = .ok packets)
    (hroom : u32 (redundancy block.nOriginal) + block.symbolsSeen.count true ≤ 2 ^ 32) :
    ∃ symbols next, Block.Yields block (u32 (redundancy block.nOriginal)) 0 symbols next ∧
      packets = symbols.map fun symbol => Packet.makeBlock symbol.1 channelId blockId
        (UInt32.ofNat block.blockSize) (UInt32.ofNat symbol.2) := by
  obtain ⟨symbols, next, hrange, rfl⟩ := blockPacketRange_ok h
  have hroom' : 0 + u32 (redundancy block.nOriginal) +
      (block.symbolsSeen.drop 0).count true ≤ 2 ^ 32 := by
    rw [List.drop_zero, Nat.zero_add]
    exact hroom
  obtain ⟨next', hyields⟩ := Block.unseenRange_yields block _ 0 hroom' symbols next hrange
  exact ⟨symbols, next', hyields, rfl⟩

namespace Block

theorem nOriginal_lt {W : Wirehair} (b : Block W) : b.nOriginal < 2 ^ 22 := by
  have := u32_lt (b.blockSize + maxBlockPacketSize - 1)
  unfold nOriginal
  unfold maxBlockPacketSize maxPacketSize at *
  omega

/-- The number of symbols asked for fits 32 bits. -/
theorem u32_redundancy {W : Wirehair} (b : Block W) :
    u32 (redundancy b.nOriginal) = redundancy b.nOriginal := by
  have hn := b.nOriginal_lt
  have := redundancy_le b.nOriginal
  exact u32_of_lt (by omega)

end Block

end FecRelay
