import FecRelay.Base.Run
import FecRelay.Codec.Deserializers
import FecRelay.Codec.SumRows

/-!
# Every recovery packet says the truth

Over a whole run of an encoder, in which packets are added, acks come in and recovery packets
go out in any order, whatever a decoder reads from a recovery packet is so: its bytes are the
combination of the packets that its footer covers, with the coefficients that the decoder
gives them. The sums behind it were started, rolled, removed from and stopped many times.
-/

namespace FecRelay

open FecRelay.Base

/-- A recovery packet that was sent, after so many packets were added and acknowledged. -/
structure SentRecovery where
  bytes : Bytes
  added : Nat
  acked : Nat

/-- An encoder, the packets that it was given, how many of them were acknowledged, and the
recovery packets that it made. -/
structure Sender where
  encoder : ByteEncoder := {}
  added : List Bytes := []
  acked : Nat := 0
  sent : List SentRecovery := []

/-- What `AddRecovery` reads from a recovery packet, if the decoder counts packets as the
encoder does. -/
def readRecovery (bytes : Bytes) (elementStart elementEnd : Nat) : Option RecoveryPacket :=
  match deserializeFooterRecoveryMetadata bytes with
  | none => none
  | some (metadata, row, footerSize) => some {
      metadata := metadata
      row := row
      elementStart := elementStart
      elementEnd := elementEnd
      buffer := bytes.take (bytes.length - footerSize) }

namespace Sender

inductive Event
  | add (data : Bytes)
  | ack (expected : Nat) (ranges : Bytes)
  | encode

/-- An ack comes from a decoder that has the first `expected` packets, and is not so old that
its number came around again. -/
inductive Step (s : Sender) : Event → Sender → Prop
  | add {data : Bytes} : (s.encoder.add data).1 = .success →
      Step s (.add data) { s with
        encoder := (s.encoder.add data).2.2
        added := s.added ++ [data] }
  | ack {expected : Nat} {ranges : Bytes} : expected ≤ s.added.length →
      s.acked < expected + siamesePacketNumCount / 2 →
      Step s (.ack expected ranges) { s with
        encoder := s.encoder.acknowledge (expected % siamesePacketNumCount) ranges
        acked := max s.acked expected }
  | encode {x : EncodedPacket} {encoder : ByteEncoder} :
      s.encoder.encode = (some x, encoder) →
      Step s .encode { s with
        encoder := encoder
        sent := s.sent ++ [⟨x.bytes, s.added.length, s.acked⟩] }

/-- The packets as they are in the window. -/
def packet (added : List Bytes) (k : Nat) : Bytes := framed (added.getD k [])

/-- What was sent is a combination of packets, and is read back. -/
structure Truthful (added : List Bytes) (x : SentRecovery) : Prop where
  exists_combines : ∃ (y : EncodedPacket) (q : Nat),
    readRecovery x.bytes x.acked x.added = some (y.received x.added x.acked) ∧
    Combines (packet added) x.added x.acked q y

/-- The encoder carries the first of some packets, and what it sent was true of them. -/
structure Keeps (added : List Bytes) (s : Sender) : Prop where
  encoder : s.encoder.Keeps (packet added) s.added.length s.acked
  expects : s.encoder.ack.nextColumnExpected = s.acked % siamesePacketNumCount
  sent : ∀ x ∈ s.sent, Truthful added x

end Sender

/-- The footer of a packet that combines others is read back. -/
theorem Combines.read {p : Nat → Bytes} {n a q : Nat} {x : EncodedPacket}
    (h : Combines p n a q x) : readRecovery x.bytes a n = some (x.received n a) := by
  have hle := h.le
  have hlt := h.lt
  have hnear := h.near
  have hrow := h.row
  have halone := h.alone
  unfold siameseMaxPackets at hnear
  unfold rowValuePeriod at hrow
  have hvalid : x.metadata.Valid x.row := by
    rw [h.metadata]
    exact ⟨show 1 ≤ n - q by omega, show n - q ≤ 2 ^ 15 by omega, show n - a ≤ n - q by omega,
      show n - a < 2 ^ 15 by omega, Nat.mod_lt _ (by decide), show x.row < 2 ^ 8 by omega,
      fun hone => ⟨show n - a = 1 from (by have hone : n - q = 1 := hone; omega), (halone hone).1⟩⟩
  have hread := deserializeFooterRecoveryMetadata_serialize hvalid x.body
  unfold readRecovery EncodedPacket.bytes
  rw [hread]
  dsimp only
  rw [List.length_append, serializeFooterRecoveryMetadata_length, Nat.add_sub_cancel,
    List.take_left]
  rfl

namespace Sender

variable {s t : Sender} {added : List Bytes}

theorem keeps_start (added : List Bytes) : ({} : Sender).Keeps added where
  encoder := ⟨ByteWindow.carries_init, by decide, by decide⟩
  expects := rfl
  sent := by simp

end Sender

namespace ByteEncoder

variable {s : ByteEncoder} {p : Nat → Bytes} {n a : Nat}

theorem Keeps.add (h : s.Keeps p n a) {data : Bytes} (hdata : p n = framed data)
    (hsuccess : (s.add data).1 = .success) : (s.add data).2.2.Keeps p (n + 1) a ∧
      (s.add data).2.2.ack = s.ack := by
  unfold ByteEncoder.add at hsuccess ⊢
  split at hsuccess
  · cases hsuccess
  next hacceptable =>
  split at hsuccess
  · cases hsuccess
  next hroom =>
  rw [if_neg hacceptable, if_neg hroom]
  unfold EncoderPacketWindow.getRemainingSlots at hroom
  exact ⟨⟨h.carries.add (by omega) hdata, h.row, h.cauchyRow⟩, rfl⟩

/-- An ack for all packets before `e` counts if it is not older than the latest. -/
theorem Keeps.acknowledge (h : s.Keeps p n a)
    (hexpects : s.ack.nextColumnExpected = a % siamesePacketNumCount) {e : Nat} (he : e ≤ n)
    (hrecent : a < e + siamesePacketNumCount / 2) (ranges : Bytes) :
    (s.acknowledge (e % siamesePacketNumCount) ranges).Keeps p n (max a e) ∧
      (s.acknowledge (e % siamesePacketNumCount) ranges).ack.nextColumnExpected =
        max a e % siamesePacketNumCount := by
  have hunacked : n - a ≤ siameseMaxPackets := (unacknowledged_le h.carries).2
  have hfits : siameseMaxPackets < siamesePacketNumCount / 2 := by
    unfold siameseMaxPackets siamesePacketNumCount
    norm_num
  have hacked := h.carries.holds.acked_le
  have hbackwards := Cyclic.backwards_iff (p := siamesePacketNumCount) (a := e) (b := a)
    ⟨2 ^ 21, rfl⟩ (by omega) hrecent
  unfold ByteEncoder.acknowledge
  dsimp only
  rw [hexpects]
  split
  · next hold =>
      rw [max_eq_left (hbackwards.mp hold).le]
      exact ⟨h, hexpects⟩
  next hnew =>
  have hle : a ≤ e := not_lt.mp fun hlt => hnew (hbackwards.mpr hlt)
  rw [max_eq_right hle]
  split
  · next hsame =>
      -- the same ack once more
      obtain rfl : a = e := by
        have hcongr := Cyclic.distance_of_near (p := siamesePacketNumCount) hle (by omega)
        rw [hsame.1, Cyclic.distance_of_near (le_refl e) (by omega)] at hcongr
        omega
      exact ⟨h, hexpects⟩
  · exact ⟨⟨h.carries.removeBefore hle he, h.row, h.cauchyRow⟩, rfl⟩

theorem Keeps.encode (h : s.Keeps p n a) {x : EncodedPacket} {t : ByteEncoder}
    (hencode : s.encode = (some x, t)) :
    (∃ q, Combines p n a q x) ∧ t.Keeps p n a ∧ t.ack = s.ack := by
  unfold ByteEncoder.encode at hencode
  split at hencode
  · cases hencode
  next hne =>
  have htrim : ({ s with window := s.window.trim } : ByteEncoder).Keeps p n a :=
    ⟨h.carries.trim, h.row, h.cauchyRow⟩
  have hcount : s.window.trim.count ≠ 0 := by
    intro hzero
    have hall := htrim.carries.holds.empty hzero
    have hunacked := h.carries.holds.count_eq_zero_iff.mpr hall
    exact hne hunacked
  obtain ⟨hcombines, hkeeps⟩ := generate_spec htrim hcount
  cases hencode
  refine ⟨hcombines, hkeeps, ?_⟩
  unfold ByteEncoder.generate ByteEncoder.generateCauchyPacket
  dsimp only
  split_ifs <;> rfl

end ByteEncoder

namespace Sender

variable {s t : Sender} {added : List Bytes}

/-- What one event preserves, where the packets that are added are the given ones. -/
theorem Keeps.step {e : Event} (h : s.Keeps added) (hstep : Step s e t)
    (hlater : t.added <+: added) : t.Keeps added := by
  cases hstep with
  | @add data hsuccess =>
      have hdata : packet added s.added.length = framed data := by
        obtain ⟨rest, rfl⟩ := hlater
        simp [packet]
      obtain ⟨hkeeps, hack⟩ := h.encoder.add hdata hsuccess
      refine ⟨?_, by rw [hack]; exact h.expects, h.sent⟩
      rw [List.length_append, List.length_singleton]
      exact hkeeps
  | ack hle hrecent =>
      obtain ⟨hkeeps, hexpects⟩ := h.encoder.acknowledge h.expects hle hrecent _
      exact ⟨hkeeps, hexpects, h.sent⟩
  | @encode x encoder hencode =>
      obtain ⟨⟨q, hcombines⟩, hkeeps, hack⟩ := h.encoder.encode hencode
      refine ⟨hkeeps, by rw [hack]; exact h.expects, fun y hy => ?_⟩
      rcases List.mem_append.mp hy with hy | hy
      · exact h.sent y hy
      · obtain rfl := List.mem_singleton.mp hy
        exact ⟨x, q, hcombines.read, hcombines⟩

theorem added_mono {e : Event} (hstep : Step s e t) : s.added <+: t.added := by
  cases hstep with
  | add _ => exact List.prefix_append _ _
  | ack _ _ => exact List.prefix_rfl
  | encode _ => exact List.prefix_rfl

theorem keeps_of_run {es : List Event} (h : Run Step {} es s) (hlater : s.added <+: added) :
    s.Keeps added := by
  generalize hstart : ({} : Sender) = start at h
  induction h with
  | nil =>
      subst hstart
      exact keeps_start added
  | snoc _ hstep ih =>
      exact (ih ((added_mono hstep).trans hlater)).step hstep hlater

/-- **Every recovery packet that was ever sent says the truth.** What a decoder reads from it
is a row whose buffer is the combination of the packets that it covers, all of which were
added before it was sent, and those of them that were not acknowledged then fit in it. -/
theorem sent_true {es : List Event} (h : Run Step {} es s) (x : SentRecovery) (hx : x ∈ s.sent) :
    Truthful s.added x :=
  (keeps_of_run h List.prefix_rfl).sent x hx

/-- A parity row and the Cauchy row after it -/
theorem sent_true_cauchy : ∃ (s : Sender) (es : List Event), Run Step {} es s ∧
    ∃ x ∈ s.sent, x.bytes = [208, 74, 123, 1, 3, 0, 2] ∧ Truthful [[1], [2, 3], [4]] x := by
  have h : Run Step {} [] {} := .nil _
  have h := h.snoc (e := Event.add [1]) (.add (by decide))
  have h := h.snoc (e := Event.add [2, 3]) (.add (by decide))
  have h := h.snoc (e := Event.add [4]) (.add (by decide))
  have h := h.snoc (e := Event.encode) (.encode rfl)
  have h := h.snoc (e := Event.encode) (.encode rfl)
  refine ⟨_, _, h, _, List.mem_append_right _ List.mem_cons_self, by decide +kernel, ?_⟩
  exact sent_true h _ (List.mem_append_right _ List.mem_cons_self)

end Sender

end FecRelay
