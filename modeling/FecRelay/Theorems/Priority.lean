import FecRelay.Base.Run
import FecRelay.Logic
import FecRelay.Packet

/-!
# Send order and packet priority

`Packet::operator<` ranks packets by type and, among block packets, puts the lower
index first. The queue a receiver sends from compares serialised packets byte by
byte. Both orders agree on packets of different types. Among block packets the
queue hands out the greatest byte string, whatever its index.
-/

namespace FecRelay.Packet

open FecRelay.Base

/-! ## Packets as `Packet::make` builds them -/

inductive WellFormed : PacketType → Bytes → Prop
  | block (payload : Bytes) (channelId blockId blockSize packetIndex : UInt32) :
      WellFormed .block (makeBlock payload channelId blockId blockSize packetIndex)
  | stream (payload : Bytes) (channelId packetIndex : UInt32) :
      WellFormed .stream (makeStream payload channelId packetIndex)
  | streamAck (payload : Bytes) (channelId : UInt32) :
      WellFormed .streamAck (makeStreamAck payload channelId)
  | control (payload : Bytes) (action channelId kbps : UInt32) :
      WellFormed .control (makeControl payload action channelId kbps)

/-- A packet starts with its version, which is zero, and its type. -/
theorem WellFormed.shape {t : PacketType} {x : Bytes} (h : WellFormed t x) :
    ∃ rest, x = store32 0 ++ (store32 t.code ++ rest) := by
  cases h with
  | block payload c b s i =>
      exact ⟨store32 c ++ (store32 b ++ (store32 s ++ (store32 i ++ payload))), rfl⟩
  | stream payload c i => exact ⟨store32 c ++ (store32 i ++ payload), rfl⟩
  | streamAck payload c => exact ⟨store32 c ++ payload, rfl⟩
  | control payload a c k => exact ⟨store32 a ++ (store32 c ++ (store32 k ++ payload)), rfl⟩

theorem WellFormed.header_eq {t : PacketType} {x : Bytes} (h : WellFormed t x) :
    header PacketHeader x = .ok ⟨0, t.code⟩ := by
  obtain ⟨rest, rfl⟩ := h.shape
  have hx : store32 0 ++ (store32 t.code ++ rest) = ofHeader (⟨0, t.code⟩ : PacketHeader) rest := by
    show _ = (store32 0 ++ (store32 t.code ++ [])) ++ rest
    rw [List.append_nil, List.append_assoc]
  rw [hx, header_ofHeader]

theorem WellFormed.blockHeader_eq {x : Bytes} (h : WellFormed .block x) :
    header BlockPacketHeader x = .ok (PacketLayout.view x) := by
  cases h with
  | block payload c b s i =>
      rw [makeBlock, header_ofHeader]
      exact congrArg Except.ok (PacketLayout.view_fields _ payload).symm

/-- A packet has one type. -/
theorem WellFormed.unique {s t : PacketType} {x : Bytes} (hs : WellFormed s x)
    (ht : WellFormed t x) : s = t := by
  have heq := hs.header_eq.symm.trans ht.header_eq
  have hcode : s.code = t.code := by simpa using heq
  exact PacketType.code_injective hcode

/-! ## The declared order -/

theorem typeInt_code (t : PacketType) : typeInt ⟨0, t.code⟩ = t.code.toNat := by
  cases t <;> rfl

/-- Types decide, and among block packets the index does. -/
theorem less_of_wellFormed {s t : PacketType} {x y : Bytes} (hx : WellFormed s x)
    (hy : WellFormed t y) :
    less x y = .ok (decide (s.code.toNat < t.code.toNat) ||
      decide (s = t ∧ s = .block ∧ blockIndex y < blockIndex x)) := by
  unfold less
  rw [hx.header_eq, hy.header_eq]
  show (if typeInt ⟨0, s.code⟩ - typeInt ⟨0, t.code⟩ < 0 then _ else _) = _
  rw [typeInt_code, typeInt_code]
  rcases lt_trichotomy s.code.toNat t.code.toNat with hlt | heq | hgt
  · rw [if_pos (by omega)]
    simp [hlt]
    rfl
  · have hst : s = t := PacketType.code_injective (UInt32.toNat_inj.mp heq)
    subst hst
    rw [if_neg (by omega)]
    by_cases hblock : s = .block
    · subst hblock
      rw [hx.blockHeader_eq, hy.blockHeader_eq]
      simp [blockIndex]
      rfl
    · have hcode : s.code ≠ PacketType.block.code :=
        fun h => hblock (PacketType.code_injective h)
      simp [hblock, hcode]
      rfl
  · have hne : s ≠ t := by
      intro h
      rw [h] at hgt
      exact lt_irrefl _ hgt
    rw [if_neg (by omega)]
    simp [hne, hgt, Nat.not_lt.mpr hgt.le]
    rfl

/-- No packet of `xs` ranks above `x`. -/
def Maximal (x : Bytes) (xs : List Bytes) : Prop := ∀ y ∈ xs, less x y = .ok false

/-- A maximal packet: nothing of a higher type is there, and for a block packet no
block packet with a smaller index. -/
theorem maximal_iff {t : PacketType} {x : Bytes} (hx : WellFormed t x) {xs : List Bytes}
    (hxs : ∀ y ∈ xs, ∃ s, WellFormed s y) :
    Maximal x xs ↔ ∀ y ∈ xs, ∀ s, WellFormed s y →
      s.code.toNat ≤ t.code.toNat ∧ (t = .block → s = .block → blockIndex x ≤ blockIndex y) := by
  refine ⟨?_, ?_⟩
  · intro h y hy s hs
    have hfalse := h y hy
    rw [less_of_wellFormed hx hs] at hfalse
    simp only [Except.ok.injEq, Bool.or_eq_false_iff, decide_eq_false_iff_not] at hfalse
    refine ⟨not_lt.mp hfalse.1, ?_⟩
    intro ht hs'
    by_contra hlt
    exact hfalse.2 ⟨ht.trans hs'.symm, ht, UInt32.not_le.mp hlt⟩
  · intro h y hy
    obtain ⟨s, hs⟩ := hxs y hy
    obtain ⟨htype, hindex⟩ := h y hy s hs
    rw [less_of_wellFormed hx hs]
    simp only [Except.ok.injEq, Bool.or_eq_false_iff, decide_eq_false_iff_not]
    refine ⟨not_lt.mpr htype, ?_⟩
    intro ⟨hts, ht, hlt⟩
    exact absurd (hindex ht (hts ▸ ht)) (UInt32.not_le.mpr hlt)

/-! ## The order of the bytes -/

/-- The bytes order packets of different types as the types are ordered. -/
theorem bytesLess_of_type_lt {s t : PacketType} {x y : Bytes} (hx : WellFormed s x)
    (hy : WellFormed t y) (h : s.code.toNat < t.code.toNat) : bytesLess x y = true := by
  obtain ⟨xs, rfl⟩ := hx.shape
  obtain ⟨ys, rfl⟩ := hy.shape
  rw [bytesLess_append_left]
  -- the first byte of the type word differs, and it is small
  have hs := s.code_lt
  have ht := t.code_lt
  have hfirst : charValue (UInt8.ofNat s.code.toNat) < charValue (UInt8.ofNat t.code.toNat) := by
    unfold charValue
    rw [UInt8.toNat_ofNat', UInt8.toNat_ofNat']
    omega
  show bytesLess (UInt8.ofNat s.code.toNat :: _) (UInt8.ofNat t.code.toNat :: _) = true
  rw [bytesLess_cons, if_pos hfirst]

end FecRelay.Packet

namespace FecRelay.ShapedPacketQueue

open FecRelay.Base
open Packet (WellFormed Maximal blockIndex)

/-! ## What a pop hands out -/

/-- No block packet can be handed out before its turn: a control packet goes first, or
there is no block packet, or one block packet is both the greatest byte string and of
the least index. -/
def LeastIndexOnTop (xs : List Bytes) : Prop :=
  (∃ x ∈ xs, WellFormed .control x) ∨ (∀ x ∈ xs, ¬WellFormed .block x) ∨
    ∃ b ∈ xs, WellFormed .block b ∧
      ∀ y ∈ xs, WellFormed .block y → bytesLess b y = false ∧ blockIndex b ≤ blockIndex y

/-- The top outranks every other type in the queue. -/
theorem type_le_of_top {q : ShapedPacketQueue} {packet : Bytes}
    (htop : q.packets.top = some packet) {t : PacketType} (ht : WellFormed t packet) :
    ∀ y ∈ q.packets.c, ∀ s, WellFormed s y → s.code.toNat ≤ t.code.toNat := by
  intro y hy s hs
  by_contra hlt
  have hgreater := Packet.bytesLess_of_type_lt ht hs (not_le.mp hlt)
  have hmax := PriorityBag.top_maximal bytesLess_strictWeak htop y hy
  rw [hgreater] at hmax
  cases hmax

/-- The top is maximal exactly where no block packet is on top before its turn. -/
theorem maximal_top_iff {q : ShapedPacketQueue} {packet : Bytes}
    (htop : q.packets.top = some packet) (hwf : ∀ y ∈ q.packets.c, ∃ s, WellFormed s y) :
    Maximal packet q.packets.c ↔ LeastIndexOnTop q.packets.c := by
  have hmem : packet ∈ q.packets.c := PriorityBag.top_mem htop
  have hmax := PriorityBag.top_maximal bytesLess_strictWeak htop
  obtain ⟨t, ht⟩ := hwf packet hmem
  have htype := type_le_of_top htop ht
  rw [Packet.maximal_iff ht hwf]
  by_cases hblock : t = .block
  · subst hblock
    -- a block packet is on top, so no control packet waits
    have hcontrol : ¬∃ x ∈ q.packets.c, WellFormed .control x := by
      intro ⟨x, hx, hc⟩
      exact absurd (htype x hx _ hc) (by decide)
    refine ⟨?_, ?_⟩
    · intro h
      refine Or.inr (Or.inr ⟨packet, hmem, ht, ?_⟩)
      intro y hy hs
      exact ⟨hmax y hy, (h y hy _ hs).2 rfl rfl⟩
    · intro h y hy s hs
      refine ⟨htype y hy s hs, ?_⟩
      intro _ hsblock
      subst hsblock
      rcases h with h | h | ⟨b, hb, hbwf, hbleast⟩
      · exact absurd h hcontrol
      · exact absurd ht (h packet hmem)
      · -- two greatest byte strings among the block packets are the same packet
        have heq : packet = b :=
          eq_of_not_bytesLess (hmax b hb) (hbleast packet hmem ht).1
        rw [heq]
        exact (hbleast y hy hs).2
  · refine ⟨?_, ?_⟩
    · intro _
      by_cases hcontrol : t = .control
      · exact Or.inl ⟨packet, hmem, hcontrol ▸ ht⟩
      · -- the top is of a lower type, so no block packet waits
        refine Or.inr (Or.inl ?_)
        intro x hx hxwf
        have hle := htype x hx _ hxwf
        cases t with
        | block => exact hblock rfl
        | control => exact hcontrol rfl
        | stream => exact absurd hle (by decide)
        | streamAck => exact absurd hle (by decide)
    · intro _ y hy s hs
      exact ⟨htype y hy s hs, fun h => absurd h hblock⟩

/-! ## Runs of `push` and `pop_value` -/

inductive Call where
  | push (packet : Bytes)
  | popValue (now : Int)
  deriving DecidableEq, Repr

/-- A call happens to the queue, whether it returns or throws. -/
def Call.Step (q : ShapedPacketQueue) (e : Call) (q' : ShapedPacketQueue) : Prop :=
  match e with
  | .push packet => q' = Method.after (ShapedPacketQueue.push packet q)
  | .popValue now => q' = Method.after (ShapedPacketQueue.popValue now q)

/-- What is queued was pushed. -/
theorem queued_of_run {q₀ q : ShapedPacketQueue} {es : List Call} (hrun : Run Call.Step q₀ es q)
    (hempty : q₀.packets.c = []) : ∀ x ∈ q.packets.c, Call.push x ∈ es := by
  induction hrun with
  | nil =>
      rw [hempty]
      intro x hx
      exact absurd hx List.not_mem_nil
  | @snoc q q' es e hrun hstep ih =>
      intro x hx
      cases e with
      | push packet =>
          have hq' : q' = { q with packets := ⟨q.packets.c ++ [packet]⟩ } := hstep
          subst hq'
          rcases List.mem_append.mp hx with hx | hx
          · exact List.mem_append_left _ (ih x hx)
          · rw [List.mem_singleton.mp hx]
            exact List.mem_append_right _ (List.mem_singleton_self _)
      | popValue now =>
          have hq' : q' = Method.after (ShapedPacketQueue.popValue now q) := hstep
          subst hq'
          refine List.mem_append_left _ (ih x ?_)
          cases htop : q.packets.top with
          | none =>
              rw [popValue_of_empty (top_eq_none_iff.mp htop)] at hx
              exact hx
          | some packet =>
              rw [popValue_after htop] at hx
              exact List.mem_of_mem_erase hx

/-- **Every `pop_value` of every run** returns a packet that is maximal under
`Packet::operator<` exactly where no block packet is on top before its turn. -/
theorem pop_is_maximal_iff {kbps bufferSize : Nat} {es : List Call} {q : ShapedPacketQueue}
    (hrun : Run Call.Step (make kbps bufferSize) es q)
    (hwf : ∀ packet, Call.push packet ∈ es → ∃ t, WellFormed t packet)
    {now : Int} {packet : Bytes} {q' : ShapedPacketQueue}
    (hpop : popValue now q = .ok packet q') :
    Maximal packet q.packets.c ↔ LeastIndexOnTop q.packets.c :=
  maximal_top_iff (popValue_ok hpop).1 fun y hy => hwf y (queued_of_run hrun rfl y hy)

/-- Symbols 0 and 1 of a block wait, and symbol 1 is handed out first. -/
theorem pop_prefers_later_index :
    let first := Packet.makeBlock [7] 1 1 2000 0
    let second := Packet.makeBlock [7] 1 1 2000 1
    ∃ q q', Run Call.Step (make 8000 5000) [.push first, .push second] q ∧
      WellFormed .block first ∧ WellFormed .block second ∧
      popValue 0 q = .ok second q' ∧ first ∈ q.packets.c ∧
      Packet.less second first = .ok true := by
  intro first second
  let q : ShapedPacketQueue := { make 8000 5000 with packets := ⟨[first, second]⟩ }
  have htop : q.packets.top = some second := by decide
  refine ⟨q, _, Run.cons rfl (Run.single rfl), .block .., .block ..,
    popValue_of_top (by decide) htop le_rfl, List.mem_cons_self, ?_⟩
  rfl

/-- Symbols of two blocks wait, and the bytes put the lower index in front. -/
theorem pop_is_maximal_iff_two_blocks :
    let early := Packet.makeBlock [7] 1 2 2000 0
    let late := Packet.makeBlock [7] 1 1 2000 1
    ∃ q q', Run Call.Step (make 8000 5000) [.push late, .push early] q ∧
      popValue 0 q = .ok early q' ∧
      (Maximal early q.packets.c ↔ LeastIndexOnTop q.packets.c) := by
  intro early late
  let q : ShapedPacketQueue := { make 8000 5000 with packets := ⟨[late, early]⟩ }
  have htop : q.packets.top = some early := by decide
  have hrun : Run Call.Step (make 8000 5000) [.push late, .push early] q :=
    Run.cons rfl (Run.single rfl)
  have hwf : ∀ packet, Call.push packet ∈ [Call.push late, Call.push early] →
      ∃ t, WellFormed t packet := by
    intro packet hp
    have hcases : packet = late ∨ packet = early := by simpa using hp
    rcases hcases with rfl | rfl
    · exact ⟨.block, .block ..⟩
    · exact ⟨.block, .block ..⟩
  have hpop := popValue_of_top (by decide : BandwidthShaper.Rate q.shaper.kbps) htop
    (le_rfl : q.shaper.bufferUtilizationTp ≤ 0)
  exact ⟨q, _, hrun, hpop, pop_is_maximal_iff hrun hwf hpop⟩

end FecRelay.ShapedPacketQueue
