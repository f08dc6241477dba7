import FecRelay.Codec.EncoderWindow
import FecRelay.Theorems.LossRanges

/-!
# What the encoder lets go of was received

An encoder and the window of a decoder exchange packets and acks. Packets and acks are lost,
repeated and reordered at will, as long as they are not so late that their numbers have come
around half the period. The encoder then has every packet that the decoder misses.
-/

namespace FecRelay

open FecRelay.Base

/-- An encoder that was given `added` packets, a decoder, and the acks that the decoder has
sent, with the packets that they said were expected. The acks that the encoder received say
that it expects packet `acked`. -/
structure Exchange where
  encoder : SiameseEncoder := {}
  added : Nat := 0
  acked : Nat := 0
  decoder : Receipt := .start 0
  acks : List (Nat × Bytes) := []

namespace Exchange

inductive Event
  | add (data : Bytes)
  | encode
  | decoder (event : Receipt.Event)
  | sendAck (byteLimit : Nat)
  | receiveAck (expected : Nat) (message : Bytes)

/-- The decoder is given what the encoder has. -/
def Honest (x : Exchange) : Receipt.Event → Prop
  | .original num _ => num < x.added
  | .covers top => top ≤ x.added
  | .recovered _ _ => True
  | .removed _ => True

inductive Step (x : Exchange) : Event → Exchange → Prop
  | add {data : Bytes} : (x.encoder.add data).1 = .success →
      Step x (.add data) { x with
        encoder := (x.encoder.add data).2.2
        added := x.added + 1 }
  | encode : Step x .encode { x with encoder := x.encoder.encode.2 }
  | decoder {event : Receipt.Event} {d : Receipt} :
      x.Honest event → Receipt.Step x.decoder event d →
      Step x (.decoder event) { x with decoder := d }
  | sendAck {byteLimit : Nat} {message : Bytes} : siameseAckMinBytes ≤ byteLimit →
      x.decoder.window.generateAcknowledgement byteLimit = (.success, message) →
      Step x (.sendAck byteLimit) { x with acks := (x.decoder.expected, message) :: x.acks }
  /-- An ack that was sent, and maybe was received before, is received. -/
  | receiveAck {expected num : Nat} {message ranges : Bytes} :
      (expected, message) ∈ x.acks → x.acked < expected + siamesePacketNumCount / 2 →
      deserializeHeaderPacketNum message = some (num, ranges) →
      Step x (.receiveAck expected message) { x with
        encoder := x.encoder.acknowledge num ranges
        acked := max x.acked expected }

variable {x y : Exchange}

/-- An ack says that all packets before `expected` were received. -/
structure Sound (x : Exchange) (expected : Nat) (message : Bytes) : Prop where
  added : expected ≤ x.added
  known : ∀ num < expected, num ∈ x.decoder.known
  number : ∃ ranges, deserializeHeaderPacketNum message =
    some (expected % siamesePacketNumCount, ranges)

structure Safe (x : Exchange) : Prop where
  encoder : x.encoder.Holds x.added x.acked
  acked : ∀ num < x.acked, num ∈ x.decoder.known
  decoder : x.decoder.Represents 0
  top : x.decoder.base + x.decoder.window.count ≤ x.added
  acks : ∀ a ∈ x.acks, x.Sound a.1 a.2

theorem safe_start : ({} : Exchange).Safe where
  encoder := SiameseEncoder.holds_init
  acked num h := absurd h (Nat.not_lt_zero num)
  decoder := Receipt.represents_start 0
  top := le_rfl
  acks := by simp

/-- A decoder forgets nothing that it received. -/
theorem known_subset (s : Receipt) (event : Receipt.Event) : s.known ⊆ (s.next event).known := by
  cases event with
  | original num data => exact Finset.subset_insert num s.known
  | covers top => exact Finset.Subset.refl _
  | recovered packets nextCheckStart => exact Finset.subset_union_left
  | removed firstKeptSubwindow => exact Finset.Subset.refl _

theorem Sound.mono {expected : Nat} {message : Bytes} (h : x.Sound expected message)
    (hadded : x.added ≤ y.added) (hknown : x.decoder.known ⊆ y.decoder.known) :
    y.Sound expected message :=
  ⟨h.added.trans hadded, fun num hlt => hknown (h.known num hlt), h.number⟩

/-- The window of the decoder ends where the encoder has no packets yet. -/
theorem Safe.top_next (h : x.Safe) {event : Receipt.Event} (hhonest : x.Honest event)
    (hallowed : x.decoder.Allowed event) :
    (x.decoder.next event).base + (x.decoder.next event).window.count ≤ x.added := by
  have htop := h.top
  have hs := h.decoder
  cases event with
  | original num data =>
      have hnum : num < x.added := hhonest
      have hcount := hs.count_original hallowed
      show x.decoder.base + _ ≤ _
      omega
  | covers top =>
      have hle : top ≤ x.added := hhonest
      show x.decoder.base + (x.decoder.window.growWindow _).count ≤ _
      rw [DecoderPacketWindow.count_growWindow]
      omega
  | recovered packets nextCheckStart =>
      obtain ⟨-, hnodup, hpackets, -⟩ := hallowed
      obtain ⟨-, hcount, -⟩ := hs.wellFormed.toCoherent.fills hnodup hpackets
      show x.decoder.base + (x.decoder.window.recover _ _).count ≤ _
      unfold DecoderPacketWindow.recover
      rw [DecoderPacketWindow.count_iterate, hcount]
      exact htop
  | removed firstKeptSubwindow =>
      have hremoved : firstKeptSubwindow * subwindowSize ≤ x.decoder.window.nextExpectedElement :=
        hallowed
      have hle := hs.wellFormed.expected_le
      show x.decoder.base + firstKeptSubwindow * subwindowSize +
        (x.decoder.window.count - firstKeptSubwindow * subwindowSize) ≤ _
      omega

theorem Safe.step (h : x.Safe) {event : Event} (hstep : Step x event y) : y.Safe := by
  cases hstep with
  | add hsuccess =>
      have hroom := (SiameseEncoder.add_success_iff.mp hsuccess).2
      refine ⟨?_, h.acked, h.decoder, h.top.trans (Nat.le_succ _), fun a ha =>
        (h.acks a ha).mono (Nat.le_succ _) (Finset.Subset.refl _)⟩
      show SiameseEncoder.Holds _ _ (x.encoder.add _).2.2
      rw [SiameseEncoder.add_of_success hsuccess]
      exact h.encoder.add hroom _
  | encode => exact ⟨h.encoder.encode, h.acked, h.decoder, h.top, fun a ha =>
      (h.acks a ha).mono le_rfl (Finset.Subset.refl _)⟩
  | decoder hhonest hdecoder =>
      have hreceipt := h.decoder.step hdecoder
      obtain ⟨hallowed, rfl⟩ := hdecoder
      have hknown := known_subset x.decoder ‹_›
      exact ⟨h.encoder, fun num hlt => hknown (h.acked num hlt), hreceipt,
        h.top_next hhonest hallowed, fun a ha => (h.acks a ha).mono le_rfl hknown⟩
  | sendAck hlimit hack =>
      refine ⟨h.encoder, h.acked, h.decoder, h.top, fun a ha => ?_⟩
      rcases List.mem_cons.mp ha with rfl | hold
      · -- the new ack is about what the decoder has now
        obtain ⟨-, -, hbefore⟩ := h.decoder.expected_spec
        have hexpected : x.decoder.expected ≤ x.added :=
          (Nat.add_le_add_left h.decoder.wellFormed.expected_le _).trans h.top
        refine ⟨hexpected, fun num hlt => hbefore num (Nat.zero_le _) hlt, ?_⟩
        obtain ⟨ranges, hranges⟩ := h.decoder.ack_number hack
        exact ⟨ranges, hranges⟩
      · exact (h.acks a hold).mono le_rfl (Finset.Subset.refl _)
  | @receiveAck expected num message ranges hsent hrecent hnum =>
      obtain ⟨hadded, hknown, ranges', hnumber⟩ := h.acks _ hsent
      obtain ⟨rfl, rfl⟩ : num = expected % siamesePacketNumCount ∧ ranges = ranges' := by
        simpa [hnum] using hnumber
      refine ⟨h.encoder.acknowledge hadded hrecent ranges, fun n hlt => ?_, h.decoder, h.top,
        fun a ha => (h.acks a ha).mono le_rfl (Finset.Subset.refl _)⟩
      rcases lt_max_iff.mp hlt with hold | hnew
      · exact h.acked n hold
      · exact hknown n hnew

theorem safe {es : List Event} (h : Run Step {} es x) : x.Safe :=
  h.invariant (fun _ _ _ hx hstep => hx.step hstep) safe_start

/-- **The encoder keeps what the decoder misses.** In every run a packet that was added and that
the decoder does not have is in the window of the encoder, and was not removed. And when the
decoder has everything that was added, the ack that it makes empties the window. -/
theorem keeps_missing {es : List Event} (h : Run Step {} es x) :
    (∀ num < x.added, num ∉ x.decoder.known → ∃ base,
      base + x.encoder.window.count = x.added ∧
      x.encoder.window.columnStart = base % siamesePacketNumCount ∧
      base + x.encoder.window.firstUnremovedElement ≤ num) ∧
    ((∀ num < x.added, num ∈ x.decoder.known) → x.decoder.window.count ≠ 0 → ∀ byteLimit,
      siameseAckMinBytes ≤ byteLimit → ∃ message num ranges,
        x.decoder.window.generateAcknowledgement byteLimit = (.success, message) ∧
        deserializeHeaderPacketNum message = some (num, ranges) ∧
        (x.encoder.acknowledge num ranges).window.count = 0) := by
  have hx := safe h
  constructor
  · intro num hadded hlost
    have hacked : x.acked ≤ num := not_lt.mp fun hlt => hlost (hx.acked num hlt)
    have hcount : x.encoder.window.count ≠ 0 := by
      intro hempty
      have hall := hx.encoder.window.empty hempty
      omega
    obtain ⟨base, hbase, hstart, hfirst, -⟩ := hx.encoder.window.elements hcount
    exact ⟨base, hbase, hstart, by omega⟩
  · intro hall hcount byteLimit hlimit
    obtain ⟨-, hlost, -⟩ := hx.decoder.expected_spec
    have hexpected : x.decoder.expected = x.added := by
      have hle : x.decoder.expected ≤ x.added :=
        (Nat.add_le_add_left hx.decoder.wellFormed.expected_le _).trans hx.top
      have hge : x.added ≤ x.decoder.expected := not_lt.mp fun hlt => hlost (hall _ hlt)
      omega
    obtain ⟨ranges, -, hack, -⟩ := hx.decoder.wellFormed.reads_ack (by
      have hle := hx.decoder.count_le
      unfold siamesePacketNumCount at hle ⊢
      omega) hcount byteLimit
    obtain ⟨ranges', hnum⟩ := hx.decoder.ack_number hack
    rw [hexpected] at hnum
    refine ⟨_, _, ranges', hack, hnum, ?_⟩
    have hle := hx.encoder.window.acked_le
    have hrecent : x.acked < x.added + siamesePacketNumCount / 2 := by
      unfold siamesePacketNumCount
      omega
    have hdone := hx.encoder.acknowledge le_rfl hrecent ranges'
    rw [max_eq_right hle] at hdone
    exact hdone.window.count_eq_zero_iff.mpr rfl

/-- The first of two packets is lost, and the decoder says so. -/
theorem keeps_missing_first : ∃ x : Exchange, x.added = 2 ∧ x.acks = [(0, [0, 0, 0])] ∧
    ∃ base, base + x.encoder.window.count = 2 ∧
      base + x.encoder.window.firstUnremovedElement ≤ 0 := by
  have h₁ : Run Step {} [.add [1]] _ := .single (.add (by decide))
  have h₂ := h₁.snoc (e := Event.add [2]) (.add (by decide))
  have h₃ := h₂.snoc (e := Event.decoder (.original 1 [2])) (.decoder (show 1 < 2 by decide)
    ⟨⟨by decide, by decide, by decide⟩, rfl⟩)
  obtain ⟨x, h₃, hack, hexpected, hlost⟩ : ∃ x, Run Step {} _ x ∧
      x.decoder.window.generateAcknowledgement 16 = (.success, [0, 0, 0]) ∧
      x.decoder.expected = 0 ∧
      x.added = 2 ∧ x.acked = 0 ∧ x.acks = [] ∧ 0 ∉ x.decoder.known :=
    ⟨_, h₃, by decide +kernel, by decide +kernel, by decide +kernel⟩
  have h₄ := h₃.snoc (.sendAck (by decide) hack)
  rw [hexpected, hlost.2.2.1] at h₄
  have hnum : deserializeHeaderPacketNum [0, 0, 0] = some (0, [0, 0]) := by decide
  have h₅ := h₄.snoc (.receiveAck (.head _) (by rw [hlost.2.1]; decide) hnum)
  have hkept := (keeps_missing h₅).1 0
  dsimp only at hkept
  rw [hlost.1] at hkept
  obtain ⟨base, hbase, -, hfirst⟩ := hkept (by decide) hlost.2.2.2
  exact ⟨⟨x.encoder.acknowledge 0 [0, 0], x.added, x.acked, x.decoder, [(0, [0, 0, 0])]⟩,
    hlost.1, rfl, base, hbase, hfirst⟩

end Exchange

end FecRelay
