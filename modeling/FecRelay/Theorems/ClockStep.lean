import FecRelay.Theorems.Receiver

/-!
# A clock that steps back

`did_send` refuses a time before the last send, and `pop_value` has taken the packet off the
queue by then. While the buffer has room `when_can_pop` is a time before the last send, so
that `maybe_send` comes to `pop_value` at such a time, and the packet on top is lost.
-/

namespace FecRelay

open FecRelay.Base

namespace BandwidthShaper

/-- A `did_send` that cannot be charged throws, and the shaper is as before. -/
theorem didSend_of_refused {s : BandwidthShaper} {tp : Int}
    (h : ¬(Rate s.kbps ∧ s.bufferUtilizationTp ≤ tp)) (bytes : Int) :
    ∃ e, didSend tp bytes s = .error e s := by
  unfold didSend fastForwardTo
  simp only [Method.bind_apply, Method.get_apply]
  by_cases htp : s.bufferUtilizationTp ≤ tp
  · have hrate : ¬Rate s.kbps := fun hrate => h ⟨hrate, htp⟩
    simp only [ge_iff_le, htp, decide_true, enforce_true, Method.lift_ok]
    cases ht : s.timePerByte with
    | error e => exact ⟨e, rfl⟩
    | ok t =>
        -- a rate above the usable ones leaves no time for a byte
        have hzero : t = 0 := by
          unfold timePerByte divide at ht
          unfold Rate at hrate
          split at ht
          · cases ht
          · cases ht
            exact Int.ediv_eq_zero_of_lt (by norm_num) (by omega)
        exact ⟨.divisionByZero, by simp [hzero, divide]⟩
  · exact ⟨.enforce "tp >= m_buffer_utilization_tp", by simp [htp]⟩

end BandwidthShaper

namespace ShapedPacketQueue

open AsioReceiver (Ready)

/-- `pop_value(now)` returns the top and charges the shaper for it, or it throws and leaves
the queue and the shaper as they were. -/
def PopsOrRestores (q : ShapedPacketQueue) (now : Int) : Prop :=
  (∃ packet, q.packets.top = some packet ∧ popValue now q = .ok packet (q.sent now packet)) ∨
    ∃ e, popValue now q = .error e q

/-- Where the shaper cannot be charged, the top is lost. -/
theorem popValue_of_refused {q : ShapedPacketQueue} {packet : Bytes}
    (htop : q.packets.top = some packet) {now : Int} (h : ¬Ready now q) :
    ∃ e, popValue now q = .error e { q with packets := ⟨q.packets.c.erase packet⟩ } := by
  obtain ⟨e, hsend⟩ := BandwidthShaper.didSend_of_refused h (packet.length : Int)
  refine ⟨e, ?_⟩
  rw [popValue_apply htop, hsend]

theorem popsOrRestores_iff (q : ShapedPacketQueue) (now : Int) :
    q.PopsOrRestores now ↔ q.packets.c = [] ∨ Ready now q := by
  cases htop : q.packets.top with
  | none =>
      have hnil := top_eq_none_iff.mp htop
      exact iff_of_true (Or.inr ⟨_, popValue_of_empty hnil now⟩) (Or.inl hnil)
  | some packet =>
      have hne : q.packets.c ≠ [] := List.ne_nil_of_mem (PriorityBag.top_mem htop)
      by_cases hready : Ready now q
      · have hpop := popValue_of_top hready.1 htop hready.2
        exact iff_of_true (Or.inl ⟨packet, htop, hpop⟩) (Or.inr hready)
      · refine iff_of_false ?_ (by simp [hne, hready])
        obtain ⟨e, hthrow⟩ := popValue_of_refused htop hready
        have hshort := PriorityBag.length_erase_top htop
        rintro (⟨p, -, hpop⟩ | ⟨e', hpop⟩)
        · rw [hthrow] at hpop
          cases hpop
        · rw [hthrow] at hpop
          have hsame : q.packets.c.erase packet = q.packets.c := by
            injection hpop with _ hstate
            exact congrArg (·.packets.c) hstate
          rw [hsame] at hshort
          omega

end ShapedPacketQueue

namespace AsioReceiver

/-- Every packet is passed to `m_send` or still queued after a `maybe_send`, whether it
returns or throws. -/
def KeepsPackets (r : AsioReceiver) (now : Int) : Prop :=
  ((Method.after (maybeSend now r)).sent.map (·.packet) ++
    (Method.after (maybeSend now r)).queue.packets.c).Perm
    (r.sent.map (·.packet) ++ r.queue.packets.c)

/-- The top is held back at `now`, or the shaper can be charged for it. -/
def PopsSafely (r : AsioReceiver) (now : Int) : Prop :=
  ∀ packet, r.queue.packets.top = some packet → Admits r.queue.shaper now packet.length →
    Ready now r.queue

/-- A pass at a time the shaper can be charged at keeps the packets. -/
theorem keepsPackets_of_ready {r : AsioReceiver} {now : Int} (h : Ready now r.queue) :
    r.KeepsPackets now := by
  obtain ⟨r', hpass, xs, q', hrun, -, hout⟩ := maybeSend_spec h
  have hkept : (r'.sent.map (·.packet) ++ r'.queue.packets.c).Perm
      (r.sent.map (·.packet) ++ r.queue.packets.c) := by
    have hperm := List.Perm.append_left (r.sent.map (·.packet)) (sends_perm hrun)
    rcases hout with ⟨-, rfl⟩ | ⟨-, t, -, rfl⟩ <;> simpa using hperm
  unfold KeepsPackets
  rw [hpass]
  exact hkept

/-- A pass that the first look at the queue ends keeps the packets. -/
theorem keepsPackets_of_loop {r : AsioReceiver} {now : Int}
    (h : Method.after (sendLoop now (r.queue.packets.c.length + 1) r) = r) :
    r.KeepsPackets now := by
  have hpass : (Method.after (maybeSend now r)).sent = r.sent ∧
      (Method.after (maybeSend now r)).queue = r.queue := by
    rw [maybeSend, Method.bind_of_ok (Method.get_apply r), Method.bind_apply]
    cases hloop : sendLoop now (r.queue.packets.c.length + 1) r with
    | error e r' =>
        rw [hloop] at h
        obtain rfl : r' = r := h
        exact ⟨rfl, rfl⟩
    | ok next r' =>
        rw [hloop] at h
        obtain rfl : r' = r := h
        cases next <;> exact ⟨rfl, rfl⟩
  unfold KeepsPackets
  rw [hpass.1, hpass.2]

/-- A top that is not admitted ends the loop, also where there is no telling when it is. -/
theorem sendLoop_of_not_admitted {r : AsioReceiver} {now : Int}
    (h : ∀ packet, r.queue.packets.top = some packet →
      ¬Admits r.queue.shaper now packet.length) (rounds : Nat) :
    Method.after (sendLoop now (rounds + 1) r) = r := by
  rw [sendLoop, Method.bind_of_ok (Method.get_apply r)]
  cases hpop : r.queue.whenCanPop with
  | error e => rfl
  | ok next =>
      rw [Method.bind_of_ok (Method.lift_ok next r)]
      cases hreached : next.reached now with
      | false => rfl
      | true =>
          -- then the top would be admitted
          cases htop : r.queue.packets.top with
          | none =>
              rw [ShapedPacketQueue.whenCanPop_of_empty
                (ShapedPacketQueue.top_eq_none_iff.mp htop)] at hpop
              cases hpop
              cases hreached
          | some packet =>
              unfold ShapedPacketQueue.whenCanPop at hpop
              rw [htop] at hpop
              cases hwhen : r.queue.shaper.whenCanSend packet.length with
              | error e => simp [hwhen, bind, Except.bind] at hpop
              | ok t =>
                  simp only [hwhen, bind, Except.bind] at hpop
                  cases hpop
                  exact absurd ⟨t, hwhen, of_decide_eq_true hreached⟩ (h packet htop)

/-- A top that is admitted at a time the shaper cannot be charged at is lost. -/
theorem not_keepsPackets_of_refused {r : AsioReceiver} {now : Int} {packet : Bytes}
    (htop : r.queue.packets.top = some packet)
    (hadmitted : Admits r.queue.shaper now packet.length) (hrefused : ¬Ready now r.queue) :
    ¬r.KeepsPackets now := by
  obtain ⟨t, hwhen, hdue⟩ := hadmitted
  obtain ⟨e, hthrow⟩ := ShapedPacketQueue.popValue_of_refused htop hrefused
  have hpop : r.queue.whenCanPop = .ok (.due t) := by
    unfold ShapedPacketQueue.whenCanPop
    rw [htop]
    simp [hwhen, bind, Except.bind, pure, Except.pure]
  let r' : AsioReceiver :=
    { r with queue := { r.queue with packets := ⟨r.queue.packets.c.erase packet⟩ } }
  have htake : onQueue (ShapedPacketQueue.popValue now) r = .error e r' :=
    Method.zoom_of_error hthrow
  have hloop : sendLoop now (r.queue.packets.c.length + 1) r = .error e r' := by
    rw [sendLoop, Method.bind_of_ok (Method.get_apply r), hpop,
      Method.bind_of_ok (Method.lift_ok _ r), Deadline.reached_due,
      if_pos (decide_eq_true hdue), Method.bind_of_error htake]
  have hpass : maybeSend now r = .error e r' := by
    rw [maybeSend, Method.bind_of_ok (Method.get_apply r), Method.bind_of_error hloop]
  have hshort := PriorityBag.length_erase_top htop
  intro hkept
  unfold KeepsPackets at hkept
  rw [hpass] at hkept
  have hlength := hkept.length_eq
  simp only [Method.after_error, r', List.length_append] at hlength
  omega

theorem keepsPackets_iff (r : AsioReceiver) (now : Int) :
    r.KeepsPackets now ↔ r.PopsSafely now := by
  constructor
  · intro hkept packet htop hadmitted
    by_contra hrefused
    exact not_keepsPackets_of_refused htop hadmitted hrefused hkept
  · intro hsafe
    by_cases hready : Ready now r.queue
    · exact keepsPackets_of_ready hready
    · refine keepsPackets_of_loop (sendLoop_of_not_admitted ?_ _)
      exact fun packet htop hadmitted => hready (hsafe packet htop hadmitted)

/-- **What a clock that steps back costs.** `pop_value` pops and charges, or leaves everything
as it was, exactly if nothing is queued or the shaper can be charged at that time. `maybe_send`
keeps every packet exactly if its first top is not admitted, or the shaper can be charged. -/
theorem pop_value_keeps_iff (q : ShapedPacketQueue) (r : AsioReceiver) (now : Int) :
    (q.PopsOrRestores now ↔ q.packets.c = [] ∨ Ready now q) ∧
      (r.KeepsPackets now ↔ r.PopsSafely now) :=
  ⟨q.popsOrRestores_iff now, keepsPackets_iff r now⟩

/-- A packet goes out at time 10, and the clock steps back to 5: the buffer has room, so the
next packet is admitted at once, and lost. -/
theorem clock_step_loses_a_packet : ∃ r r' : AsioReceiver,
    Run Step (make 8000) [.queuePacket 10 [1]] r ∧
    Run Step (make 8000) [.queuePacket 10 [1], .queuePacket 5 [2]] r' ∧
    r'.queue.packets.c = [] ∧ r'.sent.map (·.packet) = [[1]] ∧
    ¬(r.enqueued [2]).queue.PopsOrRestores 5 ∧ ¬(r.enqueued [2]).KeepsPackets 5 := by
  let r := Method.after (queuePacket 10 [1] (make 8000))
  have hfirst : Step (make 8000) (.queuePacket 10 [1]) r := ⟨nofun, rfl⟩
  have hsecond : Step r (.queuePacket 5 [2]) (Method.after (queuePacket 5 [2] r)) :=
    ⟨nofun, rfl⟩
  have htop : (r.enqueued [2]).queue.packets.top = some [2] := by decide
  have hrefused : ¬Ready 5 (r.enqueued [2]).queue := fun h => absurd h.2 (by decide)
  have hadmitted : Admits (r.enqueued [2]).queue.shaper 5 1 :=
    ⟨_, BandwidthShaper.whenCanSend_of_rate (by decide) 1, by decide⟩
  refine ⟨r, _, Run.single hfirst, Run.cons hfirst (Run.single hsecond), by decide, by decide, ?_,
    not_keepsPackets_of_refused htop hadmitted hrefused⟩
  rw [ShapedPacketQueue.popsOrRestores_iff]
  rintro (hnil | hready)
  · cases hnil
  · exact hrefused hready

end AsioReceiver

end FecRelay
