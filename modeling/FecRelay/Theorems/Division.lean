import FecRelay.Codec.Echo
import FecRelay.Net

/-!
# Which subscriptions divide by zero

A subscriber's rate comes from the network and is divided by, and what is left of
the division is divided by in turn. The relay survives a subscription exactly if
the rate is one the shaper can divide by: a rate of 0 fails when the first packet
is queued, a rate of over a byte per nanosecond once a packet is sent.
-/

namespace FecRelay

open FecRelay.Base

namespace AsioReceiver

/-- No packet queued and no wait that ends divides by zero, whatever happened before. -/
def DividesSafely (r : AsioReceiver) : Prop :=
  ∀ (es : List Event) (r' : AsioReceiver) (e : Event), Run Step r es r' →
    (e.packet? = none → 0 < r'.timer.waits) → Method.NeverThrows .divisionByZero e.call r'

/-! ## Usable rates -/

theorem sendLoop_divides {kbps : Nat} (hrate : BandwidthShaper.Rate kbps) (now : Int) :
    ∀ (rounds : Nat) (r : AsioReceiver), r.queue.shaper.kbps = kbps →
      Method.NeverThrows .divisionByZero (sendLoop now rounds) r := by
  intro rounds
  induction rounds with
  | zero => intro r _ h; cases h
  | succ rounds ih =>
      intro r hkbps
      have hr : BandwidthShaper.Rate r.queue.shaper.kbps := hkbps ▸ hrate
      unfold Method.NeverThrows
      cases htop : r.queue.packets.top with
      | none =>
          rw [sendLoop_of_empty (ShapedPacketQueue.top_eq_none_iff.mp htop)]
          simp
      | some packet =>
          rw [sendLoop, Method.bind_of_ok (Method.get_apply r),
            ShapedPacketQueue.whenCanPop_of_top hr htop, Method.bind_of_ok (Method.lift_ok _ r)]
          cases (Deadline.due (r.queue.due packet)).reached now with
          | false => simp
          | true =>
              rw [if_pos rfl]
              refine Method.NeverThrows.bind
                (Method.NeverThrows.zoom (ShapedPacketQueue.popValue_divides hr now)) ?_
              intro taken r₁ htaken
              -- the rate is what it was, for the rest of the loop
              have hkbps₁ := (framed_kbps kbps).pop now r hkbps
              rw [htaken] at hkbps₁
              exact ih _ hkbps₁

theorem maybeSend_divides {kbps : Nat} (hrate : BandwidthShaper.Rate kbps) (now : Int)
    {r : AsioReceiver} (hkbps : r.queue.shaper.kbps = kbps) :
    Method.NeverThrows .divisionByZero (maybeSend now) r := by
  unfold Method.NeverThrows
  rw [maybeSend, Method.bind_of_ok (Method.get_apply r)]
  apply Method.NeverThrows.bind (sendLoop_divides hrate now _ r hkbps)
  intro next r₁ _ hthrown
  cases next <;> cases hthrown

/-- An event keeps the rate, and does not divide by zero at a usable one. -/
theorem call_divides {kbps : Nat} (hrate : BandwidthShaper.Rate kbps) (e : Event)
    {r : AsioReceiver} (hkbps : r.queue.shaper.kbps = kbps) :
    Method.NeverThrows .divisionByZero e.call r ∧
      (Method.after (e.call r)).queue.shaper.kbps = kbps := by
  cases e with
  | queuePacket now packet =>
      show Method.NeverThrows _ (queuePacket now packet) r ∧
        (Method.after (queuePacket now packet r)).queue.shaper.kbps = kbps
      unfold Method.NeverThrows
      rw [queuePacket_apply]
      split
      · exact ⟨maybeSend_divides hrate now hkbps,
          (framed_kbps kbps).maybeSend now (r.enqueued packet) hkbps⟩
      · refine ⟨?_, hkbps⟩
        simp
  | timerExpires now =>
      exact ⟨maybeSend_divides hrate now hkbps, (framed_kbps kbps).maybeSend now _ hkbps⟩

theorem dividesSafely_of_rate {r : AsioReceiver} (hrate : BandwidthShaper.Rate r.queue.shaper.kbps) :
    r.DividesSafely := by
  intro es r' e hrun _
  have hkbps : r'.queue.shaper.kbps = r.queue.shaper.kbps := by
    refine Run.invariant (I := fun r' => r'.queue.shaper.kbps = r.queue.shaper.kbps)
      (fun s e t hs hstep => ?_) hrun rfl
    rw [hstep.result]
    exact (call_divides hrate e hs).2
  exact (call_divides hrate e hkbps).1

/-! ## Other rates -/

section first

variable {kbps : Nat} {r : AsioReceiver}
  (hqueue : r.queue = ShapedPacketQueue.make kbps networkBufferSize)
include hqueue

/-- An empty packet is queued first, at the clock's epoch. -/
theorem queuePacket_first : queuePacket 0 [] r = maybeSend 0 (r.enqueued []) := by
  have hempty : r.queue.empty = true := by
    rw [hqueue]
    rfl
  rw [queuePacket_apply, if_pos hempty]

theorem enqueued_queue : (r.enqueued []).queue =
    { shaper := { kbps := kbps, bufferSize := networkBufferSize }, packets := ⟨[[]]⟩ } := by
  show ({ r.queue with packets := ⟨r.queue.packets.c ++ [[]]⟩ } : ShapedPacketQueue) = _
  rw [hqueue]
  rfl

end first

/-- At a rate of 0 the shaper cannot tell when the packet can go. -/
theorem queuePacket_of_zero {r : AsioReceiver}
    (hqueue : r.queue = ShapedPacketQueue.make 0 networkBufferSize) :
    Method.thrown (queuePacket 0 [] r) = some .divisionByZero := by
  have hpop : (r.enqueued []).queue.whenCanPop = .error .divisionByZero := by
    rw [enqueued_queue hqueue]
    rfl
  have hloop : ∀ rounds, sendLoop 0 (rounds + 1) (r.enqueued []) =
      .error .divisionByZero (r.enqueued []) := by
    intro rounds
    rw [sendLoop, Method.bind_of_ok (Method.get_apply _), hpop]
    rfl
  rw [queuePacket_first hqueue, maybeSend, Method.bind_of_ok (Method.get_apply _),
    Method.bind_of_error (hloop _)]
  rfl

/-- At a rate of more than a byte per nanosecond the packet goes at once, and the shaper
cannot be charged for it. -/
theorem queuePacket_of_fast {kbps : Nat} (hfast : 8000000 < kbps) {r : AsioReceiver}
    (hqueue : r.queue = ShapedPacketQueue.make kbps networkBufferSize) :
    Method.thrown (queuePacket 0 [] r) = some .divisionByZero := by
  let q : ShapedPacketQueue :=
    { shaper := { kbps := kbps, bufferSize := networkBufferSize }, packets := ⟨[[]]⟩ }
  have hq : (r.enqueued []).queue = q := enqueued_queue hqueue
  have hperByte : q.shaper.timePerByte = .ok 0 := by
    show divide 8000000 (kbps : Int) = .ok 0
    unfold divide
    rw [if_neg (by omega), Int.ediv_eq_zero_of_lt (by omega) (by omega)]
  have hpop : q.whenCanPop = .ok (.due 0) := by
    show (q.shaper.whenCanSend 0 >>= fun t => pure (Deadline.due t) : Checked Deadline) = _
    unfold BandwidthShaper.whenCanSend
    rw [hperByte]
    rfl
  have hsend : BandwidthShaper.didSend 0 (([] : Bytes).length : Int) q.shaper =
      .error .divisionByZero q.shaper := by
    show BandwidthShaper.didSend 0 0 q.shaper = .error .divisionByZero q.shaper
    have hnow : (0 : Int) ≥ q.shaper.bufferUtilizationTp := le_rfl
    have hdivide : ∀ x, divide x 0 = .error .divisionByZero := fun x => if_pos rfl
    unfold BandwidthShaper.didSend BandwidthShaper.fastForwardTo
    simp only [Method.bind_apply, Method.get_apply, decide_eq_true hnow, enforce_true,
      Method.lift_ok, hperByte, hdivide, Method.lift_error]
  have htake : ShapedPacketQueue.popValue 0 q =
      .error .divisionByZero { q with packets := ⟨[]⟩ } := by
    rw [ShapedPacketQueue.popValue_apply (show q.packets.top = some [] from rfl), hsend]
    rfl
  have hloop : ∀ rounds, sendLoop 0 (rounds + 1) (r.enqueued []) =
      .error .divisionByZero { r.enqueued [] with queue := { q with packets := ⟨[]⟩ } } := by
    intro rounds
    have honQueue : onQueue (ShapedPacketQueue.popValue 0) (r.enqueued []) =
        .error .divisionByZero { r.enqueued [] with queue := { q with packets := ⟨[]⟩ } } :=
      Method.zoom_of_error (hq ▸ htake)
    rw [sendLoop, Method.bind_of_ok (Method.get_apply _), hq, hpop,
      Method.bind_of_ok (Method.lift_ok _ _), Deadline.reached_due, if_pos (by decide),
      Method.bind_of_error honQueue]
  rw [queuePacket_first hqueue, maybeSend, Method.bind_of_ok (Method.get_apply _),
    Method.bind_of_error (hloop _)]
  rfl

theorem dividesSafely_iff {r : AsioReceiver} {kbps : Nat}
    (hqueue : r.queue = ShapedPacketQueue.make kbps networkBufferSize) :
    r.DividesSafely ↔ BandwidthShaper.Rate kbps := by
  constructor
  · intro h
    have hfirst : Method.NeverThrows .divisionByZero (queuePacket 0 []) r := by
      apply h [] r (.queuePacket 0 []) (.nil r)
      intro hwait
      cases hwait
    by_contra hrate
    rcases (by unfold BandwidthShaper.Rate at hrate; omega : kbps = 0 ∨ 8000000 < kbps) with
      rfl | hfast
    · exact hfirst (queuePacket_of_zero hqueue)
    · exact hfirst (queuePacket_of_fast hfast hqueue)
  · intro hrate
    apply dividesSafely_of_rate
    rw [hqueue]
    exact hrate

end AsioReceiver

namespace Node

variable {W : Wirehair} {S : Siamese} {ε : Type} [LinearOrder ε]

/-- A datagram that is a SUBSCRIBE packet, with its header. -/
structure IsSubscribe (data : Bytes) (h : ControlPacketHeader) : Prop where
  header : Packet.header ControlPacketHeader data = .ok h
  control : h.packetType = PacketType.control.code
  action : h.action = actionSubscribe

/-- No receiver that a SUBSCRIBE packet makes ever divides by zero. -/
def SubscriptionsDivideSafely (W : Wirehair) (S : Siamese) (ε : Type) [LinearOrder ε] : Prop :=
  ∀ (n n' : Node W S ε) (around : Surroundings ε) (data : Bytes) (peer : ε)
    (h : ControlPacketHeader) (r : AsioReceiver), IsSubscribe data h →
    handlePacket around data peer n = .ok () n' → n'.receiver h.channelId peer = some r →
    r.DividesSafely

/-- A SUBSCRIBE packet is accepted, with any rate. -/
theorem handlePacket_subscribe {data : Bytes} {h : ControlPacketHeader}
    (hsubscribe : IsSubscribe data h) (around : Surroundings ε) (peer : ε) (n : Node W S ε) :
    handlePacket around data peer n = .ok () (subscribe h.channelId peer h.kbps n) := by
  obtain ⟨hsize, hview⟩ := Packet.header_ok_iff.mp hsubscribe.header
  have hsize : 20 ≤ data.length := hsize
  have hread : ∀ i, i < 5 → readWord data i = .ok (word data i) := fun i hi =>
    if_pos (by omega)
  have hheader : Packet.header PacketHeader data = .ok h.toPacketHeader :=
    Packet.header_ok_iff.mpr ⟨le_trans (by decide) hsize, hview ▸ rfl⟩
  have haction : word data 2 = actionSubscribe := hsubscribe.action ▸ hview ▸ rfl
  have hcontrol : handleControl data peer n = .ok () (subscribe h.channelId peer h.kbps n) := by
    rw [handleControl, hread 2 (by decide), Method.bind_of_ok (Method.lift_ok _ n),
      if_pos haction, hread 3 (by decide), Method.bind_of_ok (Method.lift_ok _ n),
      hread 4 (by decide), Method.bind_of_ok (Method.lift_ok _ n), ← hview]
    rfl
  rw [handlePacket, hheader, Method.bind_of_ok (Method.lift_ok _ n), hsubscribe.control,
    PacketType.ofCode_code]
  exact hcontrol

/-- The receiver of a new subscription has an empty queue at the subscribed rate. -/
theorem receiver_subscribe (channelId : UInt32) (peer : ε) (kbps : UInt32) (n : Node W S ε) :
    ∃ r, (subscribe channelId peer kbps n).receiver channelId peer = some r ∧
      r.queue = ShapedPacketQueue.make kbps.toNat networkBufferSize := by
  have hreceiver : ∀ r, (n.withReceiver channelId peer r).receiver channelId peer = some r := by
    intro r
    show (Function.update n.subscriptions channelId _ channelId).find? peer = some r
    rw [Function.update_self, OrderedMap.find?_insertOrAssign, if_pos rfl]
  refine ⟨_, hreceiver _, ?_⟩
  cases (n.subscriptions channelId).find? peer <;> rfl

/-- **Which rates are safe.** A SUBSCRIBE packet is accepted, and the receiver made for it
never divides by zero exactly if its rate is from 1 to 8,000,000. -/
theorem subscribe_divides_safely_iff {data : Bytes} {h : ControlPacketHeader}
    (hsubscribe : IsSubscribe data h) (around : Surroundings ε) (peer : ε) (n : Node W S ε) :
    ∃ n' r, handlePacket around data peer n = .ok () n' ∧
      n'.receiver h.channelId peer = some r ∧
      (r.DividesSafely ↔ BandwidthShaper.Rate h.kbps.toNat) := by
  obtain ⟨r, hr, hqueue⟩ := receiver_subscribe h.channelId peer h.kbps n
  exact ⟨_, r, handlePacket_subscribe hsubscribe around peer n, hr,
    AsioReceiver.dividesSafely_iff hqueue⟩

/-- A SUBSCRIBE packet for channel 1. -/
def subscribePacket (kbps : UInt32) : Bytes := Packet.makeControl [] actionSubscribe 1 kbps

theorem isSubscribe_makeControl (payload : Bytes) (channelId kbps : UInt32) :
    IsSubscribe (Packet.makeControl payload actionSubscribe channelId kbps)
      ⟨⟨0, PacketType.control.code⟩, actionSubscribe, channelId, kbps⟩ :=
  ⟨Packet.header_ofHeader _ _, rfl, rfl⟩

theorem isSubscribe_subscribePacket (kbps : UInt32) : IsSubscribe (subscribePacket kbps)
    ⟨⟨0, PacketType.control.code⟩, actionSubscribe, 1, kbps⟩ :=
  isSubscribe_makeControl [] 1 kbps

theorem subscribe_divides_safely_iff_2000 : ∃ (n' : Node replicating echoing Nat) (r : AsioReceiver),
    handlePacket { rounds := 0, clock := fun _ _ => 0 } (subscribePacket 2000) 7 {} = .ok () n' ∧
      n'.receiver 1 7 = some r ∧ (r.DividesSafely ↔ BandwidthShaper.Rate 2000) :=
  subscribe_divides_safely_iff (isSubscribe_subscribePacket 2000) _ 7 {}

/-- **A rate of 0 divides by zero.** -/
theorem zero_rate_divides_by_zero : ¬SubscriptionsDivideSafely replicating echoing Nat := by
  intro h
  obtain ⟨r, hr, hqueue⟩ := receiver_subscribe 1 7 0 ({} : Node replicating echoing Nat)
  have hsafe := h {} _ { rounds := 0, clock := fun _ _ => 0 } (subscribePacket 0) 7 _ r
    (isSubscribe_subscribePacket 0) (handlePacket_subscribe (isSubscribe_subscribePacket 0) _ 7 {}) hr
  have hrate : BandwidthShaper.Rate 0 := (AsioReceiver.dividesSafely_iff hqueue).mp hsafe
  exact absurd hrate.1 (by decide)

end Node

end FecRelay
