import FecRelay.Theorems.Shaper

/-!
# `when_can_send` is exact

`when_can_send` multiplies the bytes that are too many by the time a byte takes, and
`did_send` divides the elapsed time by it. The product and the rounded quotient are on the
same side of the bytes that are too many, so a send leaves the buffer within its size from
that time on and not before. The level and the sums with it are `int`s, which overflow in
`did_send` only where they do in `when_can_send`.
-/

namespace FecRelay

open FecRelay.Base

namespace BandwidthShaper

/-! ## On `int`s -/

/-- The values of an `int`. -/
def IsInt (x : Int) : Prop := -2 ^ 31 ≤ x ∧ x ≤ intMax

instance (x : Int) : Decidable (IsInt x) := inferInstanceAs (Decidable (_ ∧ _))

/-- A sum of `int`s. -/
def intSum (x y : Int) : Checked Int :=
  if IsInt (x + y) then .ok (x + y) else .error .signedOverflow

theorem intSum_ok_iff {x y z : Int} : intSum x y = .ok z ↔ IsInt (x + y) ∧ z = x + y := by
  unfold intSum
  by_cases h : IsInt (x + y) <;> simp [h, eq_comm]

theorem intSum_of_isInt {x y : Int} (h : IsInt (x + y)) : intSum x y = .ok (x + y) := if_pos h

/-- `when_can_send`, where the sums may overflow. -/
def whenCanSendInt (s : BandwidthShaper) (bytes : Int) : Checked Int := do
  let filled ← intSum s.bufferUtilization bytes
  let excessBytes ← intSum filled (-s.bufferSize)
  let t ← s.timePerByte
  pure (s.bufferUtilizationTp + excessBytes * t)

/-- `did_send`, where the sum may overflow. -/
def didSendInt (tp : Int) (bytes : Int) : Method Fault BandwidthShaper Unit := do
  fastForwardTo tp
  let s ← get
  let utilization ← Method.lift (intSum s.bufferUtilization bytes)
  set { s with bufferUtilization := utilization }

/-- A `when_can_send` that has not overflowed answers as if it could not. -/
theorem whenCanSendInt_ok {s : BandwidthShaper} {bytes earliest : Int}
    (h : s.whenCanSendInt bytes = .ok earliest) :
    IsInt (s.bufferUtilization + bytes) ∧ s.whenCanSend bytes = .ok earliest := by
  unfold whenCanSendInt at h
  cases hfilled : intSum s.bufferUtilization bytes with
  | error e => simp [hfilled, bind, Except.bind] at h
  | ok filled =>
      obtain ⟨hfits, rfl⟩ := intSum_ok_iff.mp hfilled
      cases hexcess : intSum (s.bufferUtilization + bytes) (-s.bufferSize) with
      | error e => simp [hfilled, hexcess, bind, Except.bind] at h
      | ok excess =>
          obtain ⟨-, rfl⟩ := intSum_ok_iff.mp hexcess
          simp only [hfilled, hexcess, bind, Except.bind] at h
          exact ⟨hfits, h⟩

theorem drained_le {u r : Int} (hu : 0 ≤ u) (hr : 0 ≤ r) : drained u r ≤ u := by
  unfold drained
  split <;> omega

/-- Where `when_can_send` does not overflow, `did_send` does not at any later time. -/
theorem didSendInt_of_fits {s : BandwidthShaper} (hrate : Rate s.kbps) {tp bytes : Int}
    (hlevel : 0 ≤ s.bufferUtilization) (htp : s.bufferUtilizationTp ≤ tp) (hint : IsInt bytes)
    (hfits : IsInt (s.bufferUtilization + bytes)) :
    didSendInt tp bytes s = .ok () (s.charged (perByte s.kbps) tp bytes) := by
  have hread : 0 ≤ (tp - s.bufferUtilizationTp) / perByte s.kbps :=
    Int.ediv_nonneg (by omega) (perByte_pos hrate).le
  have hle := drained_le hlevel hread
  have hnonneg := drained_nonneg s.bufferUtilization ((tp - s.bufferUtilizationTp) / perByte s.kbps)
  have hsum : IsInt (drained s.bufferUtilization
      ((tp - s.bufferUtilizationTp) / perByte s.kbps) + bytes) := by
    unfold IsInt at *
    omega
  unfold didSendInt fastForwardTo
  simp only [Method.bind_apply, Method.get_apply, ge_iff_le, htp, decide_true, enforce_true,
    Method.lift_ok, timePerByte_of_rate hrate, divide_of_pos (perByte_pos hrate),
    Method.set_apply, intSum_of_isInt hsum]
  rfl

end BandwidthShaper

namespace AsioReceiver

open BandwidthShaper (IsInt)

/-! ## Waiting for the threshold -/

/-- A pass that comes too early for the top waits until the top is due. -/
theorem maybeSend_of_wait {now : Int} {r : AsioReceiver} (hready : Ready now r.queue)
    {packet : Bytes} (htop : r.queue.packets.top = some packet)
    (hwait : now < r.queue.due packet) : maybeSend now r =
      .ok () { r with timer := (r.timer.expiresAt (r.queue.due packet)).asyncWait } :=
  maybeSend_of_loop_due (sendLoop_of_wait hready htop hwait _)

/-- A wait that ends when the top is due lets it go. -/
theorem waitDone_of_due {now : Int} {r : AsioReceiver} (hready : Ready now r.queue)
    {packet : Bytes} (htop : r.queue.packets.top = some packet)
    (hdue : r.queue.due packet ≤ now) : ∃ r' later, waitDone now r = .ok () r' ∧
      r'.sent = r.sent ++ { time := now, packet := packet, shaper := r.queue.shaper } :: later := by
  let r₀ : AsioReceiver := { r with timer := { r.timer with waits := r.timer.waits - 1 } }
  let x : Sent := { time := now, packet := packet, shaper := r.queue.shaper }
  let r₁ : AsioReceiver :=
    { r₀ with queue := r.queue.sent now packet, sent := r.sent ++ [x] }
  have hshorter : r₁.queue.packets.c.length < r.queue.packets.c.length := by
    have := PriorityBag.length_erase_top htop
    show (r.queue.packets.c.erase packet).length < _
    omega
  obtain ⟨xs, q', next, hloop, -⟩ :=
    sendLoop_spec r.queue.packets.c.length r₁ (hready.sent packet) hshorter
  have hpass : sendLoop now (r₀.queue.packets.c.length + 1) r₀ =
      .ok next { r₁ with queue := q', sent := r₁.sent ++ xs } :=
    (sendLoop_of_due (r := r₀) hready htop hdue _).trans hloop
  have hsent : r₁.sent ++ xs = r.sent ++ x :: xs := by simp [r₁, x]
  rw [waitDone, Method.bind_of_ok (Method.modify_apply _ r)]
  cases next with
  | farFuture => exact ⟨_, xs, maybeSend_of_loop_empty hpass, hsent⟩
  | due t => exact ⟨_, xs, maybeSend_of_loop_due hpass, hsent⟩

/-- **`when_can_send` is the exact threshold**: a `did_send` leaves the buffer within its size
from that time on and not before. On `int`s the same holds wherever `when_can_send` does not
overflow. A pass that finds a top of that size too early waits for that time, and a wait that
ends then or later lets the top go. -/
theorem whenCanSend_is_threshold {s : BandwidthShaper} {t bytes tp : Int}
    (hlevel : 0 ≤ s.bufferUtilization) (ht : s.timePerByte = .ok t) (hpos : 0 < t)
    (hbytes : bytes ≤ s.bufferSize) (htp : s.bufferUtilizationTp ≤ tp) :
    ∃ earliest s', s.whenCanSend bytes = .ok earliest ∧
      BandwidthShaper.didSend tp bytes s = .ok () s' ∧ s'.bufferSize = s.bufferSize ∧
      (s'.bufferUtilization ≤ s'.bufferSize ↔ earliest ≤ tp) ∧
      (IsInt bytes → s.whenCanSendInt bytes = .ok earliest →
        BandwidthShaper.didSendInt tp bytes s = .ok () s') ∧
      (∀ (r : AsioReceiver) (packet : Bytes), r.queue.shaper = s →
        r.queue.packets.top = some packet → packet.length = bytes →
        (tp < earliest → maybeSend tp r =
          .ok () { r with timer := (r.timer.expiresAt earliest).asyncWait }) ∧
        (earliest ≤ tp → ∃ r' later, waitDone tp r = .ok () r' ∧
          r'.sent = r.sent ++ { time := tp, packet := packet, shaper := s } :: later)) := by
  obtain ⟨hrate, rfl⟩ := BandwidthShaper.rate_of_timePerByte ht hpos
  refine ⟨_, _, BandwidthShaper.whenCanSend_of_rate hrate bytes,
    BandwidthShaper.didSend_of_rate hrate htp bytes, rfl,
    BandwidthShaper.charged_le_bufferSize_iff hpos hbytes, ?_, ?_⟩
  · intro hint hwhen
    exact BandwidthShaper.didSendInt_of_fits hrate hlevel htp hint
      (BandwidthShaper.whenCanSendInt_ok hwhen).1
  · rintro r packet rfl htop rfl
    exact ⟨maybeSend_of_wait ⟨hrate, htp⟩ htop, waitDone_of_due ⟨hrate, htp⟩ htop⟩

/-- At 8000 kbit/s a byte too many has to wait for a microsecond. -/
theorem whenCanSend_is_threshold_full :
    let s : BandwidthShaper := { kbps := 8000, bufferSize := 5000, bufferUtilization := 5000 }
    ∃ earliest s', s.whenCanSend 1 = .ok earliest ∧
      BandwidthShaper.didSend 999 1 s = .ok () s' ∧ s'.bufferSize = s.bufferSize ∧
      (s'.bufferUtilization ≤ s'.bufferSize ↔ earliest ≤ 999) := by
  intro s
  have hlevel : 0 ≤ s.bufferUtilization := by simp [s]
  have ht : s.timePerByte = .ok 1000 := by simp [s, BandwidthShaper.timePerByte, divide]
  have hbytes : 1 ≤ s.bufferSize := by simp [s]
  have htp : s.bufferUtilizationTp ≤ 999 := by simp [s]
  obtain ⟨earliest, s', hwhen, hsend, hsize, hiff, -⟩ :=
    whenCanSend_is_threshold hlevel ht (by norm_num) hbytes htp
  exact ⟨earliest, s', hwhen, hsend, hsize, hiff⟩

end AsioReceiver

end FecRelay
