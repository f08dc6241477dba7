import FecRelay.Base.Run
import FecRelay.Logic

/-!
# The sending side of a subscription

`AsioReceiver` owns a shaped queue and a timer. A packet that finds the queue
empty is tried at once; whatever cannot go yet waits for the timer, whose handler
tries again. The receiver's `sent` and `queued` fields record the calls of
`m_send` and `queue_packet`, oldest first; no branch reads them.
-/

namespace FecRelay

open FecRelay.Base

/-! ## Timer -/

/-- `boost::asio::basic_waitable_timer<Clock>`, as far as its waits go. -/
structure Timer where
  expiry : Int := 0
  /-- waits whose handler has not been made ready -/
  waits : Nat := 0
  /-- cancelled waits, whose handler will run with `operation_aborted` -/
  aborted : Nat := 0
  deriving DecidableEq, Repr

namespace Timer

/-- `expires_at(t)`, which cancels the waits outstanding. -/
def expiresAt (t : Int) (timer : Timer) : Timer :=
  { expiry := t, waits := 0, aborted := timer.aborted + timer.waits }

/-- `async_wait(handler)`. -/
def asyncWait (timer : Timer) : Timer := { timer with waits := timer.waits + 1 }

end Timer

/-! ## Receiver -/

/-- `NETWORK_BUFFER_SIZE`. -/
def networkBufferSize : Nat := 5000

/-- One call of `m_send`: the clock reading of its pass, the packet, and the
shaper as it was just before the packet was taken off the queue. -/
structure Sent where
  time : Int
  packet : Bytes
  shaper : BandwidthShaper
  deriving DecidableEq, Repr

structure AsioReceiver where
  queue : ShapedPacketQueue
  timer : Timer := {}
  sent : List Sent := []
  queued : List Bytes := []

namespace AsioReceiver

/-- `AsioReceiver(io_context, send, kbps)`. -/
def make (kbps : Nat) : AsioReceiver :=
  { queue := ShapedPacketQueue.make kbps networkBufferSize }

/-- A call on `m_queue`. -/
def onQueue {α : Type} (m : Method Fault ShapedPacketQueue α) : Method Fault AsioReceiver α :=
  Method.zoom queue (fun q r => { r with queue := q }) m

/-- `m_send(packet)`. -/
def send (x : Sent) : Method Fault AsioReceiver Unit :=
  modify fun r => { r with sent := r.sent ++ [x] }

/-- The loop of `maybe_send`; it answers the `next` it stopped at. Every pass
takes a packet off the queue, so `rounds` beyond the queue's length never run out. -/
def sendLoop (now : Int) : Nat → Method Fault AsioReceiver Deadline
  | 0 => throw .diverges
  | rounds + 1 => do
      let r ← get
      let next ← Method.lift r.queue.whenCanPop
      if next.reached now then
        let packet ← onQueue (ShapedPacketQueue.popValue now)
        send { time := now, packet := packet, shaper := r.queue.shaper }
        sendLoop now rounds
      else
        pure next

/-- Setting the timer for `next` and waiting for it. -/
def armTimer (next : Int) : Method Fault AsioReceiver Unit :=
  modify fun r => { r with timer := (r.timer.expiresAt next).asyncWait }

def maybeSend (now : Int) : Method Fault AsioReceiver Unit := do
  let r ← get
  let next ← sendLoop now (r.queue.packets.c.length + 1)
  match next with
  | .farFuture => pure ()
  | .due t => armTimer t

/-- `queue_packet(packet)`; `now` is what the clock reads if it is asked. -/
def queuePacket (now : Int) (packet : Bytes) : Method Fault AsioReceiver Unit := do
  let r ← get
  let wasEmpty := r.queue.empty
  modify fun r => { r with queued := r.queued ++ [packet] }
  onQueue (ShapedPacketQueue.push packet)
  if wasEmpty then
    maybeSend now

/-- The handler of an outstanding wait whose time has come. -/
def waitDone (now : Int) : Method Fault AsioReceiver Unit := do
  modify fun r => { r with timer := { r.timer with waits := r.timer.waits - 1 } }
  maybeSend now

/-- The handler of a cancelled wait: `enforce_ec` throws. -/
def waitAborted : Method Fault AsioReceiver Unit := do
  modify fun r => { r with timer := { r.timer with aborted := r.timer.aborted - 1 } }
  throw (.systemError "operation_aborted")

/-! ## What one pass of the loop does -/

/-- The shaper lets `bytes` go at `now`: `when_can_send(bytes) <= now`. -/
def Admits (s : BandwidthShaper) (now : Int) (bytes : Int) : Prop :=
  ∃ t, s.whenCanSend bytes = .ok t ∧ t ≤ now

/-- One packet goes out: the top, admitted by the shaper as it stands, charged
to it, and taken off the queue. -/
structure SendStep (q : ShapedPacketQueue) (x : Sent) (q' : ShapedPacketQueue) : Prop where
  top : q.packets.top = some x.packet
  shaper : x.shaper = q.shaper
  admitted : Admits q.shaper x.time x.packet.length
  next : q' = q.sent x.time x.packet

/-- A queue at a usable rate that was last charged no later than `now`. -/
def Ready (now : Int) (q : ShapedPacketQueue) : Prop :=
  BandwidthShaper.Rate q.shaper.kbps ∧ q.shaper.bufferUtilizationTp ≤ now

theorem Ready.sent {now : Int} {q : ShapedPacketQueue} (h : Ready now q) (packet : Bytes) :
    Ready now (q.sent now packet) :=
  ⟨h.1, le_rfl⟩

theorem sendLoop_of_empty {now : Int} {r : AsioReceiver} (h : r.queue.packets.c = [])
    (rounds : Nat) : sendLoop now (rounds + 1) r = .ok .farFuture r := by
  rw [sendLoop, Method.bind_of_ok (Method.get_apply r), ShapedPacketQueue.whenCanPop_of_empty h,
    Method.bind_of_ok (Method.lift_ok _ r), Deadline.reached_farFuture]
  rfl

/-- A top that is not due yet ends the loop. -/
theorem sendLoop_of_wait {now : Int} {r : AsioReceiver} (hready : Ready now r.queue)
    {packet : Bytes} (htop : r.queue.packets.top = some packet)
    (hwait : now < r.queue.due packet) (rounds : Nat) :
    sendLoop now (rounds + 1) r = .ok (.due (r.queue.due packet)) r := by
  rw [sendLoop, Method.bind_of_ok (Method.get_apply r),
    ShapedPacketQueue.whenCanPop_of_top hready.1 htop, Method.bind_of_ok (Method.lift_ok _ r),
    Deadline.reached_due, if_neg (by simpa using hwait)]
  rfl

/-- A top that is due goes out, and the loop goes on with what is left. -/
theorem sendLoop_of_due {now : Int} {r : AsioReceiver} (hready : Ready now r.queue)
    {packet : Bytes} (htop : r.queue.packets.top = some packet)
    (hdue : r.queue.due packet ≤ now) (rounds : Nat) :
    sendLoop now (rounds + 1) r = sendLoop now rounds
      { r with
        queue := r.queue.sent now packet
        sent := r.sent ++ [{ time := now, packet := packet, shaper := r.queue.shaper }] } := by
  have htake : onQueue (ShapedPacketQueue.popValue now) r =
      .ok packet { r with queue := r.queue.sent now packet } :=
    Method.zoom_of_ok (ShapedPacketQueue.popValue_of_top hready.1 htop hready.2)
  rw [sendLoop, Method.bind_of_ok (Method.get_apply r),
    ShapedPacketQueue.whenCanPop_of_top hready.1 htop, Method.bind_of_ok (Method.lift_ok _ r),
    Deadline.reached_due, if_pos (decide_eq_true hdue), Method.bind_of_ok htake]
  rfl

/-- The loop empties the queue of what the shaper admits at `now`, and stops at
the first packet it does not admit. -/
theorem sendLoop_spec {now : Int} :
    ∀ (rounds : Nat) (r : AsioReceiver), Ready now r.queue →
      r.queue.packets.c.length < rounds →
      ∃ xs q' next,
        sendLoop now rounds r = .ok next { r with queue := q', sent := r.sent ++ xs } ∧
        Run SendStep r.queue xs q' ∧ (∀ x ∈ xs, x.time = now) ∧
        q'.whenCanPop = .ok next ∧ next.reached now = false := by
  intro rounds
  induction rounds with
  | zero => intro r _ hlen; exact absurd hlen (Nat.not_lt_zero _)
  | succ rounds ih =>
      intro r hready hlen
      cases htop : r.queue.packets.top with
      | none =>
          -- an empty queue answers `FAR_FUTURE`
          have hempty := ShapedPacketQueue.top_eq_none_iff.mp htop
          refine ⟨[], r.queue, .farFuture, ?_, .nil _, by simp,
            ShapedPacketQueue.whenCanPop_of_empty hempty, rfl⟩
          rw [sendLoop_of_empty hempty, List.append_nil]
      | some packet =>
          have hpop := ShapedPacketQueue.whenCanPop_of_top hready.1 htop
          by_cases hnow : r.queue.due packet ≤ now
          · -- admitted: one step, then the rest of the loop
            let x : Sent := { time := now, packet := packet, shaper := r.queue.shaper }
            let r₁ : AsioReceiver :=
              { r with queue := r.queue.sent now packet, sent := r.sent ++ [x] }
            have hlen₁ : r₁.queue.packets.c.length < rounds := by
              have := PriorityBag.length_erase_top htop
              show (r.queue.packets.c.erase packet).length < rounds
              omega
            obtain ⟨xs, q', next, hloop, hrun, htimes, hwait, hstop⟩ :=
              ih r₁ (hready.sent packet) hlen₁
            have hadmitted : Admits r.queue.shaper now packet.length :=
              ⟨_, BandwidthShaper.whenCanSend_of_rate hready.1 packet.length, hnow⟩
            have hstep : SendStep r.queue x (r.queue.sent now packet) :=
              ⟨htop, rfl, hadmitted, rfl⟩
            refine ⟨x :: xs, q', next, ?_, Run.cons hstep hrun, ?_, hwait, hstop⟩
            · rw [sendLoop_of_due hready htop hnow]
              show sendLoop now rounds r₁ = _
              rw [hloop]
              simp [r₁, x]
            · intro y hy
              rcases List.mem_cons.mp hy with rfl | hy
              · rfl
              · exact htimes y hy
          · -- not admitted yet
            refine ⟨[], r.queue, .due (r.queue.due packet), ?_, .nil _, by simp, hpop,
              by simpa using hnow⟩
            rw [sendLoop_of_wait hready htop (not_le.mp hnow), List.append_nil]

/-- The packets a pass of `maybe_send` at `now` gets rid of: `r'` has sent them and
waits for the first packet that is left, if there is one. -/
def Flushed (now : Int) (r r' : AsioReceiver) : Prop :=
  ∃ xs q', Run SendStep r.queue xs q' ∧ (∀ x ∈ xs, x.time = now) ∧
    ((q'.packets.c = [] ∧ r' = { r with queue := q', sent := r.sent ++ xs }) ∨
      (q'.packets.c ≠ [] ∧ ∃ t, now < t ∧ r' = { r with
        queue := q', sent := r.sent ++ xs, timer := (r.timer.expiresAt t).asyncWait }))

/-- A pass over a queue that runs empty starts no wait. -/
theorem maybeSend_of_loop_empty {now : Int} {r r' : AsioReceiver}
    (h : sendLoop now (r.queue.packets.c.length + 1) r = .ok .farFuture r') :
    maybeSend now r = .ok () r' := by
  rw [maybeSend, Method.bind_of_ok (Method.get_apply r), Method.bind_of_ok h]
  rfl

/-- A pass that stops at a packet waits for it. -/
theorem maybeSend_of_loop_due {now t : Int} {r r' : AsioReceiver}
    (h : sendLoop now (r.queue.packets.c.length + 1) r = .ok (.due t) r') :
    maybeSend now r = .ok () { r' with timer := (r'.timer.expiresAt t).asyncWait } := by
  rw [maybeSend, Method.bind_of_ok (Method.get_apply r), Method.bind_of_ok h]
  rfl

theorem maybeSend_spec {now : Int} {r : AsioReceiver} (h : Ready now r.queue) :
    ∃ r', maybeSend now r = .ok () r' ∧ Flushed now r r' := by
  obtain ⟨xs, q', next, hloop, hrun, htimes, hwait, hstop⟩ :=
    sendLoop_spec (r.queue.packets.c.length + 1) r h (Nat.lt_succ_self _)
  cases next with
  | farFuture =>
      refine ⟨{ r with queue := q', sent := r.sent ++ xs }, maybeSend_of_loop_empty hloop, xs, q',
        hrun, htimes, Or.inl ⟨?_, rfl⟩⟩
      · by_contra hne
        obtain ⟨packet, htop⟩ : ∃ packet, q'.packets.top = some packet :=
          PriorityBag.top_isSome hne
        unfold ShapedPacketQueue.whenCanPop at hwait
        rw [htop] at hwait
        cases hs : q'.shaper.whenCanSend packet.length <;> simp [hs] at hwait
  | due t =>
      refine ⟨_, maybeSend_of_loop_due hloop, xs, q', hrun, htimes,
        Or.inr ⟨?_, t, by simpa using hstop, rfl⟩⟩
      · intro hempty
        rw [ShapedPacketQueue.whenCanPop_of_empty hempty] at hwait
        exact absurd hwait (by simp)

/-- The receiver right after a packet was put into its queue. -/
def enqueued (r : AsioReceiver) (packet : Bytes) : AsioReceiver :=
  { r with
    queued := r.queued ++ [packet]
    queue := { r.queue with packets := ⟨r.queue.packets.c ++ [packet]⟩ } }

theorem queuePacket_apply (now : Int) (packet : Bytes) (r : AsioReceiver) :
    queuePacket now packet r =
      if r.queue.empty then maybeSend now (r.enqueued packet)
      else .ok () (r.enqueued packet) := by
  rw [queuePacket, Method.bind_of_ok (Method.get_apply r)]
  cases r.queue.empty <;> rfl

/-- A packet is queued behind others, or the queue was empty and is flushed. -/
theorem queuePacket_spec {now : Int} {packet : Bytes} {r : AsioReceiver}
    (h : Ready now r.queue) :
    ∃ r', queuePacket now packet r = .ok () r' ∧
      ((r.queue.packets.c ≠ [] ∧ r' = r.enqueued packet) ∨
        (r.queue.packets.c = [] ∧ Flushed now (r.enqueued packet) r')) := by
  rw [queuePacket_apply]
  by_cases hempty : r.queue.empty = true
  · rw [if_pos hempty]
    have hready : Ready now (r.enqueued packet).queue := h
    obtain ⟨r', hsend, hflush⟩ := maybeSend_spec hready
    exact ⟨r', hsend, Or.inr ⟨ShapedPacketQueue.empty_iff.mp hempty, hflush⟩⟩
  · rw [if_neg hempty]
    exact ⟨_, rfl, Or.inl ⟨fun hnil => hempty (ShapedPacketQueue.empty_iff.mpr hnil), rfl⟩⟩

theorem waitDone_spec {now : Int} {r : AsioReceiver} (h : Ready now r.queue) :
    ∃ r', waitDone now r = .ok () r' ∧
      Flushed now { r with timer := { r.timer with waits := r.timer.waits - 1 } } r' := by
  have hready : Ready now
      ({ r with timer := { r.timer with waits := r.timer.waits - 1 } } : AsioReceiver).queue := h
  obtain ⟨r', hsend, hflush⟩ := maybeSend_spec hready
  refine ⟨r', ?_, hflush⟩
  rw [waitDone, Method.bind_of_ok (Method.modify_apply _ r)]
  exact hsend

/-! ## What a pass of the loop leaves alone -/

/-- Frame rule: what taking a packet off the queue, recording it and setting the timer
keep, `maybe_send` keeps, whether it returns or throws. -/
structure Framed (I : AsioReceiver → Prop) : Prop where
  pop : ∀ now r, I r → I (Method.after (onQueue (ShapedPacketQueue.popValue now) r))
  sent : ∀ r xs, I r → I { r with sent := xs }
  timer : ∀ r timer, I r → I { r with timer := timer }

theorem Framed.sendLoop {I : AsioReceiver → Prop} (h : Framed I) (now : Int) :
    ∀ (rounds : Nat) (r : AsioReceiver), I r →
      I (Method.after (AsioReceiver.sendLoop now rounds r)) := by
  intro rounds
  induction rounds with
  | zero => exact fun r hr => hr
  | succ rounds ih =>
      intro r hr
      rw [AsioReceiver.sendLoop, Method.bind_of_ok (Method.get_apply r)]
      cases hpop : r.queue.whenCanPop with
      | error e => exact hr
      | ok next =>
          rw [Method.bind_of_ok (Method.lift_ok next r)]
          cases next.reached now with
          | false => exact hr
          | true =>
              rw [if_pos rfl, Method.bind_apply]
              have hpopped := h.pop now r hr
              cases hvalue : onQueue (ShapedPacketQueue.popValue now) r with
              | error e r₁ =>
                  rw [hvalue] at hpopped
                  exact hpopped
              | ok packet r₁ =>
                  rw [hvalue] at hpopped
                  exact ih _ (h.sent r₁ _ hpopped)

theorem Framed.maybeSend {I : AsioReceiver → Prop} (h : Framed I) (now : Int) (r : AsioReceiver)
    (hr : I r) : I (Method.after (AsioReceiver.maybeSend now r)) := by
  have hloop := h.sendLoop now (r.queue.packets.c.length + 1) r hr
  rw [AsioReceiver.maybeSend, Method.bind_of_ok (Method.get_apply r), Method.bind_apply]
  cases hend : AsioReceiver.sendLoop now (r.queue.packets.c.length + 1) r with
  | error e r₁ =>
      rw [hend] at hloop
      exact hloop
  | ok next r₁ =>
      rw [hend] at hloop
      cases next with
      | farFuture => exact hloop
      | due t => exact h.timer r₁ _ hloop

theorem framed_queued (packets : List Bytes) : Framed fun r => r.queued = packets where
  pop now r h := by
    unfold onQueue Method.zoom
    cases ShapedPacketQueue.popValue now r.queue <;> exact h
  sent _ _ h := h
  timer _ _ h := h

/-- A `queue_packet` adds its packet to the record, whatever else becomes of it. -/
theorem queuePacket_queued (now : Int) (packet : Bytes) (r : AsioReceiver) :
    (Method.after (queuePacket now packet r)).queued = r.queued ++ [packet] := by
  rw [queuePacket_apply]
  split
  · exact (framed_queued _).maybeSend now (r.enqueued packet) rfl
  · rfl

theorem waitDone_queued (now : Int) (r : AsioReceiver) :
    (Method.after (waitDone now r)).queued = r.queued :=
  (framed_queued _).maybeSend now _ rfl

theorem framed_kbps (kbps : Nat) : Framed fun r => r.queue.shaper.kbps = kbps where
  pop now r h := by
    have hkbps := ShapedPacketQueue.popValue_kbps now r.queue
    unfold onQueue Method.zoom
    cases hpop : ShapedPacketQueue.popValue now r.queue with
    | ok packet q =>
        rw [hpop] at hkbps
        exact hkbps.trans h
    | error e q =>
        rw [hpop] at hkbps
        exact hkbps.trans h
  sent _ _ h := h
  timer _ _ h := h

/-- No call on a receiver changes its rate. -/
theorem queuePacket_kbps (now : Int) (packet : Bytes) (r : AsioReceiver) :
    (Method.after (queuePacket now packet r)).queue.shaper.kbps = r.queue.shaper.kbps := by
  rw [queuePacket_apply]
  split
  · exact (framed_kbps _).maybeSend now (r.enqueued packet) rfl
  · rfl

theorem waitDone_kbps (now : Int) (r : AsioReceiver) :
    (Method.after (waitDone now r)).queue.shaper.kbps = r.queue.shaper.kbps :=
  (framed_kbps _).maybeSend now _ rfl

/-- The move assignment of `receiver` to `r`: the timer's outstanding waits are
cancelled, and what was queued is gone. The records go on. -/
def moveAssign (r receiver : AsioReceiver) : AsioReceiver :=
  { receiver with
    timer := { receiver.timer with aborted := r.timer.aborted + r.timer.waits }
    sent := r.sent
    queued := r.queued }

/-! ## What drives a receiver -/

/-- A call of `queue_packet`, or the end of an outstanding wait. The clock reading
of a call that does not ask the clock may be any. -/
inductive Event where
  | queuePacket (now : Int) (packet : Bytes)
  | timerExpires (now : Int)
  deriving DecidableEq, Repr

namespace Event

def reading : Event → Int
  | .queuePacket now _ => now
  | .timerExpires now => now

def call : Event → Method Fault AsioReceiver Unit
  | .queuePacket now packet => AsioReceiver.queuePacket now packet
  | .timerExpires now => waitDone now

/-- The packet an event adds. -/
def packet? : Event → Option Bytes
  | .queuePacket _ packet => some packet
  | .timerExpires _ => none

end Event

/-- One event happens to the receiver; a timer can only expire while it is waited for. -/
structure Step (r : AsioReceiver) (e : Event) (r' : AsioReceiver) : Prop where
  enabled : e.packet? = none → 0 < r.timer.waits
  result : r' = Method.after (e.call r)

end AsioReceiver

end FecRelay
