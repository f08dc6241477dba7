import FecRelay.Codec.Siamese
import FecRelay.Packet

/-!
# A stream codec that echoes

Its recovery packet is a copy of the latest original packet with the number in
front. It obeys the laws of the stream codec and stands in for Siamese where a run
is to be shown.
-/

namespace FecRelay

open FecRelay.Base

/-- A decoder's packets seen so far, and a packet it can recover. -/
structure Echo where
  seen : List Nat := []
  pending : Option (Nat × Bytes) := none

namespace Echo

def addOriginal (d : Echo) (num : Nat) : SiameseResult × Echo :=
  if num ∈ d.seen then (.duplicateData, d)
  else (.success, {
    seen := d.seen ++ [num]
    pending := d.pending.filter fun packet => packet.1 != num })

def addRecovery (d : Echo) (data : Bytes) : SiameseResult × Echo :=
  let num := (load32 data).toNat
  if num ∈ d.seen then (.success, d)
  else if num < siamesePacketNumCount then
    (.success, { d with pending := some (num, data.drop 4) })
  else (.invalidInput, d)

def decode (d : Echo) : SiameseResult × List (Nat × Bytes) × Echo :=
  match d.pending with
  | none => (.needMoreData, [], d)
  | some packet => (.success, [packet], { seen := d.seen ++ [packet.1] })

/-- The number after the greatest one seen. -/
def expects (d : Echo) : Nat := d.seen.foldl (fun e num => max e (num + 1)) 0

/-- The recovery packet of an encoder that was given `added`. -/
def recovery (added : List Bytes) : SiameseResult × Bytes :=
  match added.getLast? with
  | none => (.needMoreData, [])
  | some data =>
      (.success, store32 (UInt32.ofNat ((added.length - 1) % siamesePacketNumCount)) ++ data)

end Echo

@[reducible] def echoing : Siamese where
  Encoder := List Bytes
  Decoder := Echo
  encoderCreate := []
  encoderAdd e data := (.success, e.length % siamesePacketNumCount, e ++ [data])
  encode e := ((Echo.recovery e).1, (Echo.recovery e).2, e)
  encoderAck e message := (.success, (load32 message).toNat, e)
  decoderCreate := {}
  decoderAddOriginal d num _ := d.addOriginal num
  decoderAddRecovery := Echo.addRecovery
  decoderIsReady d := (if d.pending.isSome then .success else .needMoreData, d)
  decode := Echo.decode
  decoderAck d _ :=
    if d.seen = [] then (.needMoreData, [], d)
    else (.success, store32 (UInt32.ofNat d.expects), d)

namespace Echo

/-! ## Numbering -/

theorem encoder_eq_added {added emitted : List Bytes} {e : echoing.Encoder}
    (h : echoing.EncoderRun added emitted e) : e = added := by
  induction h with
  | create => rfl
  | @add added emitted e data _ _ ih =>
      show e ++ [data] = added ++ [data]
      rw [ih]
  | encode _ _ ih => exact ih
  | ack message _ ih => exact ih

theorem numbers : echoing.Numbers := by
  intro added emitted e data h _
  show e.length % siamesePacketNumCount = added.length % siamesePacketNumCount
  rw [encoder_eq_added h]

/-! ## Recovery -/

/-- A recovery packet of an encoder within the range of numbers names a packet the
encoder was given. -/
theorem recovery_sound {added : List Bytes} (hcount : added.length ≤ siamesePacketNumCount)
    (h : (recovery added).1 = .success) :
    added[(load32 (recovery added).2).toNat]? = some ((recovery added).2.drop 4) := by
  unfold recovery at h ⊢
  cases hlast : added.getLast? with
  | none =>
      rw [hlast] at h
      cases h
  | some data =>
      have hne : added ≠ [] := by
        rintro rfl
        cases hlast
      have hpos := List.length_pos_iff.mpr hne
      have hsmall : (added.length - 1) % siamesePacketNumCount = added.length - 1 :=
        Nat.mod_eq_of_lt (by omega)
      have hfits : added.length - 1 < 2 ^ 32 := by
        unfold siamesePacketNumCount at hcount
        omega
      show added[(load32 (store32 _ ++ data)).toNat]? = some ((store32 _ ++ data).drop 4)
      rw [load32_store32, hsmall, UInt32.toNat_ofNat_of_lt' hfits, ← List.getLast?_eq_getElem?,
        hlast]
      rfl

/-- Every recovery packet that was emitted names a packet that was added. -/
theorem emitted_sound {added emitted : List Bytes} {e : echoing.Encoder}
    (h : echoing.EncoderRun added emitted e) (hcount : added.length ≤ siamesePacketNumCount) :
    ∀ data ∈ emitted, added[(load32 data).toNat]? = some (data.drop 4) := by
  induction h with
  | create => exact fun data hdata => absurd hdata List.not_mem_nil
  | @add added emitted e data _ _ ih =>
      rw [List.length_append] at hcount
      intro recovery hrecovery
      exact Reassembly.getElem?_of_prefix (List.prefix_append added [data])
        (ih (by omega) recovery hrecovery)
  | @encode added emitted e hrun hsuccess ih =>
      intro data hdata
      rcases List.mem_append.mp hdata with hdata | hdata
      · exact ih hcount data hdata
      · rw [List.mem_singleton.mp hdata]
        obtain rfl := encoder_eq_added hrun
        exact recovery_sound hcount hsuccess
  | ack message _ ih => exact ih hcount

theorem ack_same (d : Echo) (byteLimit : Nat) : (echoing.decoderAck d byteLimit).2.2 = d := by
  show (if _ then _ else _ : SiameseResult × Bytes × Echo).2.2 = d
  split <;> rfl

/-- What a decoder may recover is a packet of its peer. -/
theorem pending_sound {added emitted : List Bytes} {d : echoing.Decoder}
    (hemitted : ∀ data ∈ emitted, added[(load32 data).toNat]? = some (data.drop 4))
    (h : echoing.Fed added emitted d) : ∀ packet ∈ d.pending, added[packet.1]? = some packet.2 := by
  induction h with
  | create => exact fun packet hpacket => absurd hpacket (by simp)
  | @addOriginal d num data _ _ ih =>
      intro packet hpacket
      show added[packet.1]? = some packet.2
      have hpacket : packet ∈ (d.addOriginal num).2.pending := hpacket
      unfold addOriginal at hpacket
      split at hpacket
      · exact ih packet hpacket
      · exact ih packet (Option.mem_filter_iff.mp hpacket).1
  | @addRecovery d data _ hmem ih =>
      intro packet hpacket
      have hpacket : packet ∈ (d.addRecovery data).2.pending := hpacket
      unfold addRecovery at hpacket
      dsimp only at hpacket
      split at hpacket
      · exact ih packet hpacket
      split at hpacket
      · cases hpacket
        exact hemitted data hmem
      · exact ih packet hpacket
  | isReady _ ih => exact ih
  | @decode d _ ih =>
      intro packet hpacket
      have hpacket : packet ∈ (Echo.decode d).2.2.pending := hpacket
      unfold Echo.decode at hpacket
      split at hpacket
      · exact ih packet hpacket
      · cases hpacket
  | @ack d byteLimit _ ih =>
      rw [ack_same]
      exact ih

theorem recovers : echoing.Recovers := by
  intro added emitted e d hrun hcount hfed hsuccess packet hpacket
  have hpacket : packet ∈ (Echo.decode d).2.1 := hpacket
  unfold Echo.decode at hpacket
  split at hpacket
  · cases hpacket
  · next p hp =>
      rw [List.mem_singleton.mp hpacket]
      exact pending_sound (emitted_sound hrun hcount) hfed p hp

/-! ## First sight -/

theorem mem_seen_addOriginal {d : Echo} {num x : Nat} (hx : x ∈ d.seen ++ [num]) :
    x ∈ (d.addOriginal num).2.seen := by
  unfold addOriginal
  split
  · next hnum =>
      rcases List.mem_append.mp hx with hx | hx
      · exact hx
      · rw [List.mem_singleton.mp hx]
        exact hnum
  · exact hx

theorem seen_addRecovery (d : Echo) (data : Bytes) : (d.addRecovery data).2.seen = d.seen := by
  unfold addRecovery
  dsimp only
  split
  · rfl
  · split <;> rfl

theorem seen_decode (d : Echo) :
    (Echo.decode d).2.2.seen = d.seen ++ (Echo.decode d).2.1.map (·.1) := by
  unfold Echo.decode
  split <;> simp

/-- What the decoder may recover it has not seen. -/
def PendingUnseen (d : Echo) : Prop :=
  ∀ packet ∈ d.pending, packet.1 ∉ d.seen ∧ packet.1 < siamesePacketNumCount

theorem PendingUnseen.addOriginal {d : Echo} (h : d.PendingUnseen) (num : Nat) :
    (d.addOriginal num).2.PendingUnseen := by
  unfold Echo.addOriginal
  split
  · exact h
  · intro packet hpacket
    obtain ⟨hmem, hne⟩ := Option.mem_filter_iff.mp hpacket
    obtain ⟨hunseen, hlt⟩ := h packet hmem
    refine ⟨?_, hlt⟩
    intro hx
    rcases List.mem_append.mp hx with hx | hx
    · exact hunseen hx
    · simp [List.mem_singleton.mp hx] at hne

theorem PendingUnseen.addRecovery {d : Echo} (h : d.PendingUnseen) (data : Bytes) :
    (d.addRecovery data).2.PendingUnseen := by
  unfold Echo.addRecovery
  dsimp only
  split
  · exact h
  split
  · next hnew hlt =>
      intro packet hpacket
      cases hpacket
      exact ⟨hnew, hlt⟩
  · exact h

theorem PendingUnseen.decode {d : Echo} (h : d.PendingUnseen) :
    (Echo.decode d).2.2.PendingUnseen := by
  unfold Echo.decode
  split
  · exact h
  · intro packet hpacket
    cases hpacket

/-- The decoder has seen what it was given and what it recovered. -/
theorem seen_sound {nums : List Nat} {d : echoing.Decoder} (h : echoing.Sees nums d) :
    (∀ num ∈ nums, num ∈ d.seen) ∧ Echo.PendingUnseen d := by
  induction h with
  | create => exact ⟨fun num hnum => absurd hnum List.not_mem_nil, fun packet hp => by cases hp⟩
  | @addOriginal nums d num data _ _ ih =>
      refine ⟨?_, ih.2.addOriginal num⟩
      intro x hx
      apply mem_seen_addOriginal
      rcases List.mem_append.mp hx with hx | hx
      · exact List.mem_append_left _ (ih.1 x hx)
      · exact List.mem_append_right _ hx
  | @addRecovery nums d data _ _ ih =>
      refine ⟨?_, ih.2.addRecovery data⟩
      intro x hx
      show x ∈ (d.addRecovery data).2.seen
      rw [seen_addRecovery]
      exact ih.1 x hx
  | isReady _ _ ih => exact ih
  | @decode nums d _ hsuccess ih =>
      refine ⟨?_, ih.2.decode⟩
      intro x hx
      show x ∈ (Echo.decode d).2.2.seen
      rw [seen_decode]
      rcases List.mem_append.mp hx with hx | hx
      · exact List.mem_append_left _ (ih.1 x hx)
      · exact List.mem_append_right _ hx

theorem decodesFirstSeen : echoing.DecodesFirstSeen := by
  intro nums d hsees hsuccess
  obtain ⟨hseen, hpending⟩ := seen_sound hsees
  show ((Echo.decode d).2.1.map _).Nodup ∧ ∀ packet ∈ (Echo.decode d).2.1, _
  unfold Echo.decode
  split
  · exact ⟨List.nodup_nil, fun packet hpacket => absurd hpacket List.not_mem_nil⟩
  · next p hp =>
      refine ⟨List.nodup_singleton _, ?_⟩
      intro packet hpacket
      rw [List.mem_singleton.mp hpacket]
      obtain ⟨hunseen, hlt⟩ := hpending p hp
      exact ⟨fun hnum => hunseen (hseen _ hnum), hlt⟩

end Echo

end FecRelay
