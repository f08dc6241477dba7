import FecRelay.Utility

/-!
# Bandwidth shaping

`BandwidthShaper` models the connection as a buffer that must not be exceeded
and that the recipient drains at a certain rate. `ShapedPacketQueue` holds the
packets back until the shaper admits them. Levels, sizes and times are exact
integers: an `int` holds every sum of levels and sizes that is computed as long as
twice the size of the buffer fits it.
-/

namespace FecRelay

open FecRelay.Base

/-! ## The shaper -/

structure BandwidthShaper where
  kbps : Nat
  /-- A buffer of this size -/
  bufferSize : Int
  /-- was filled to this level -/
  bufferUtilization : Int := 0
  /-- at this time. -/
  bufferUtilizationTp : Int := 0
  deriving DecidableEq, Repr

namespace BandwidthShaper

/-- `8'000'000ns / m_kbps`. -/
def timePerByte (s : BandwidthShaper) : Checked Int := divide 8000000 s.kbps

def whenCanSend (s : BandwidthShaper) (bytes : Int) : Checked Int := do
  let excessBytes := s.bufferUtilization + bytes - s.bufferSize
  let t ← s.timePerByte
  pure (s.bufferUtilizationTp + excessBytes * t)

/-- The level after `bytesRead` bytes have been drained, which cannot be negative. -/
def drained (utilization bytesRead : Int) : Int :=
  if bytesRead > utilization then 0 else utilization - bytesRead

def fastForwardTo (tp : Int) : Method Fault BandwidthShaper Unit := do
  let s ← get
  Method.lift (enforce (decide (tp ≥ s.bufferUtilizationTp)) "tp >= m_buffer_utilization_tp")
  let t ← Method.lift s.timePerByte
  -- the difference is not negative here, so the quotient is rounded towards zero
  let bytesRead ← Method.lift (divide (tp - s.bufferUtilizationTp) t)
  set { s with
    bufferUtilization := drained s.bufferUtilization bytesRead
    bufferUtilizationTp := tp }

def didSend (tp : Int) (bytes : Int) : Method Fault BandwidthShaper Unit := do
  fastForwardTo tp
  modify fun s => { s with bufferUtilization := s.bufferUtilization + bytes }

/-- The shaper after it was charged for `bytes` at `tp`, at `t` per byte. -/
def charged (s : BandwidthShaper) (t : Int) (tp : Int) (bytes : Int) : BandwidthShaper :=
  { s with
    bufferUtilization :=
      drained s.bufferUtilization ((tp - s.bufferUtilizationTp) / t) + bytes
    bufferUtilizationTp := tp }

section charged

variable (s : BandwidthShaper) (t : Int) (tp : Int) (bytes : Int)

@[simp] theorem charged_kbps : (s.charged t tp bytes).kbps = s.kbps := rfl
@[simp] theorem charged_bufferSize : (s.charged t tp bytes).bufferSize = s.bufferSize := rfl
@[simp] theorem charged_tp : (s.charged t tp bytes).bufferUtilizationTp = tp := rfl

end charged

/-- The rates the shaper can divide by: at most one byte per nanosecond. -/
def Rate (kbps : Nat) : Prop := 1 ≤ kbps ∧ kbps ≤ 8000000

instance (kbps : Nat) : Decidable (Rate kbps) := inferInstanceAs (Decidable (_ ∧ _))

/-- Nanoseconds per byte at a rate. -/
def perByte (kbps : Nat) : Int := 8000000 / kbps

theorem perByte_pos {kbps : Nat} (h : Rate kbps) : 0 < perByte kbps := by
  have hk : (0 : Int) < kbps := by exact_mod_cast h.1
  have hle : (kbps : Int) ≤ 8000000 := by exact_mod_cast h.2
  show 1 ≤ 8000000 / (kbps : Int)
  rw [Int.le_ediv_iff_mul_le hk]
  omega

theorem timePerByte_of_rate {s : BandwidthShaper} (h : Rate s.kbps) :
    s.timePerByte = .ok (perByte s.kbps) :=
  divide_of_pos (by exact_mod_cast h.1)

theorem whenCanSend_of_rate {s : BandwidthShaper} (h : Rate s.kbps) (bytes : Int) :
    s.whenCanSend bytes = .ok (s.bufferUtilizationTp +
      (s.bufferUtilization + bytes - s.bufferSize) * perByte s.kbps) := by
  unfold whenCanSend
  rw [timePerByte_of_rate h]
  rfl

/-- `did_send` at a usable rate and a time that is not before the last one. -/
theorem didSend_of_rate {s : BandwidthShaper} (h : Rate s.kbps) {tp : Int}
    (htp : s.bufferUtilizationTp ≤ tp) (bytes : Int) :
    didSend tp bytes s = .ok () (s.charged (perByte s.kbps) tp bytes) := by
  unfold didSend fastForwardTo
  simp only [Method.bind_apply, Method.get_apply, ge_iff_le, htp, decide_true, enforce_true,
    Method.lift_ok, timePerByte_of_rate h, divide_of_pos (perByte_pos h), Method.set_apply,
    Method.modify_apply]
  rfl

/-- At a usable rate a `did_send` does not divide by zero, also at a time it refuses. -/
theorem didSend_divides {s : BandwidthShaper} (h : Rate s.kbps) (tp bytes : Int) :
    Method.NeverThrows .divisionByZero (didSend tp bytes) s := by
  unfold Method.NeverThrows
  by_cases htp : s.bufferUtilizationTp ≤ tp
  · rw [didSend_of_rate h htp]
    simp
  · have hrefused : didSend tp bytes s =
        .error (.enforce "tp >= m_buffer_utilization_tp") s := by
      unfold didSend fastForwardTo
      simp only [Method.bind_apply, Method.get_apply, ge_iff_le, htp, decide_false,
        enforce_false, Method.lift_error]
    rw [hrefused]
    simp

/-- Whatever becomes of a `did_send`, the rate and the size of the buffer stay. -/
theorem didSend_after (s : BandwidthShaper) (tp : Int) (bytes : Int) :
    (Method.after (didSend tp bytes s)).kbps = s.kbps ∧
      (Method.after (didSend tp bytes s)).bufferSize = s.bufferSize := by
  unfold didSend fastForwardTo
  simp only [Method.bind_apply, Method.get_apply]
  cases enforce (decide (tp ≥ s.bufferUtilizationTp)) "tp >= m_buffer_utilization_tp" with
  | error e => exact ⟨rfl, rfl⟩
  | ok _ =>
      simp only [Method.lift_ok]
      cases s.timePerByte with
      | error e => exact ⟨rfl, rfl⟩
      | ok t =>
          simp only [Method.lift_ok]
          cases divide (tp - s.bufferUtilizationTp) t with
          | error e => exact ⟨rfl, rfl⟩
          | ok r => exact ⟨rfl, rfl⟩

/-- The level a charge leaves, against the times on either side of it. -/
theorem drained_le_iff {u r b : Int} (hb : 0 ≤ b) : drained u r ≤ b ↔ u - r ≤ b := by
  unfold drained
  split <;> omega

theorem drained_nonneg (u r : Int) : 0 ≤ drained u r := by
  unfold drained
  split <;> omega

theorem le_drained (u r : Int) : u - r ≤ drained u r := by
  unfold drained
  split <;> omega

/-- A charge leaves the buffer within its size exactly from `when_can_send` on. -/
theorem charged_le_bufferSize_iff {s : BandwidthShaper} {t : Int} (ht : 0 < t) {tp bytes : Int}
    (hbytes : bytes ≤ s.bufferSize) :
    (s.charged t tp bytes).bufferUtilization ≤ s.bufferSize ↔
      s.bufferUtilizationTp + (s.bufferUtilization + bytes - s.bufferSize) * t ≤ tp := by
  have hroom : 0 ≤ s.bufferSize - bytes := by omega
  have hlevel := drained_le_iff (u := s.bufferUtilization)
    (r := (tp - s.bufferUtilizationTp) / t) hroom
  calc (s.charged t tp bytes).bufferUtilization ≤ s.bufferSize
    _ ↔ drained s.bufferUtilization ((tp - s.bufferUtilizationTp) / t) ≤
        s.bufferSize - bytes := by
        show drained _ _ + bytes ≤ _ ↔ _
        omega
    _ ↔ s.bufferUtilization + bytes - s.bufferSize ≤ (tp - s.bufferUtilizationTp) / t := by
        rw [hlevel]
        omega
    _ ↔ s.bufferUtilizationTp + (s.bufferUtilization + bytes - s.bufferSize) * t ≤ tp := by
        rw [Int.le_ediv_iff_mul_le ht]
        omega

end BandwidthShaper

/-! ## The queue -/

structure ShapedPacketQueue where
  shaper : BandwidthShaper
  packets : MovablePriorityQueue Bytes bytesLess := {}

namespace ShapedPacketQueue

def make (kbps bufferSize : Nat) : ShapedPacketQueue :=
  { shaper := { kbps := kbps, bufferSize := bufferSize } }

/-- A call on `m_shaper`. -/
def onShaper {α : Type} (m : Method Fault BandwidthShaper α) : Method Fault ShapedPacketQueue α :=
  Method.zoom shaper (fun s q => { q with shaper := s }) m

/-- A call on `m_packets`. -/
def onPackets {α : Type} (m : Method Fault (MovablePriorityQueue Bytes bytesLess) α) :
    Method Fault ShapedPacketQueue α :=
  Method.zoom packets (fun p q => { q with packets := p }) m

def empty (q : ShapedPacketQueue) : Bool := q.packets.empty

def push (packet : Bytes) : Method Fault ShapedPacketQueue Unit :=
  onPackets (MovablePriorityQueue.push packet)

def whenCanPop (q : ShapedPacketQueue) : Checked Deadline :=
  match q.packets.top with
  | none => .ok .farFuture
  | some packet => do
      let t ← q.shaper.whenCanSend packet.length
      pure (.due t)

def popValue (now : Int) : Method Fault ShapedPacketQueue Bytes := do
  let packet ← onPackets MovablePriorityQueue.popValue
  onShaper (BandwidthShaper.didSend now packet.length)
  pure packet

@[simp] theorem push_apply (packet : Bytes) (q : ShapedPacketQueue) :
    push packet q = .ok () { q with packets := ⟨q.packets.c ++ [packet]⟩ } := rfl

theorem empty_iff {q : ShapedPacketQueue} : q.empty = true ↔ q.packets.c = [] :=
  List.isEmpty_iff

theorem top_of_empty {q : ShapedPacketQueue} (h : q.packets.c = []) : q.packets.top = none :=
  PriorityBag.top_eq_none_iff.mpr h

theorem top_eq_none_iff {q : ShapedPacketQueue} : q.packets.top = none ↔ q.packets.c = [] :=
  PriorityBag.top_eq_none_iff

theorem whenCanPop_of_empty {q : ShapedPacketQueue} (h : q.packets.c = []) :
    q.whenCanPop = .ok .farFuture := by
  unfold whenCanPop
  rw [top_of_empty h]

/-- When the shaper lets `packet` go, at a usable rate. -/
def due (q : ShapedPacketQueue) (packet : Bytes) : Int :=
  q.shaper.bufferUtilizationTp +
    (q.shaper.bufferUtilization + packet.length - q.shaper.bufferSize) *
      BandwidthShaper.perByte q.shaper.kbps

theorem whenCanPop_of_top {q : ShapedPacketQueue} (hrate : BandwidthShaper.Rate q.shaper.kbps)
    {packet : Bytes} (htop : q.packets.top = some packet) :
    q.whenCanPop = .ok (.due (q.due packet)) := by
  unfold whenCanPop
  rw [htop]
  simp only [BandwidthShaper.whenCanSend_of_rate hrate]
  rfl

/-- The queue after `packet` was taken off and the shaper charged for it. -/
def sent (q : ShapedPacketQueue) (now : Int) (packet : Bytes) : ShapedPacketQueue :=
  { shaper := q.shaper.charged (BandwidthShaper.perByte q.shaper.kbps) now packet.length
    packets := ⟨q.packets.c.erase packet⟩ }

theorem popValue_of_top {q : ShapedPacketQueue} (hrate : BandwidthShaper.Rate q.shaper.kbps)
    {packet : Bytes} (htop : q.packets.top = some packet) {now : Int}
    (hnow : q.shaper.bufferUtilizationTp ≤ now) :
    popValue now q = .ok packet (q.sent now packet) := by
  let q₁ : ShapedPacketQueue := { q with packets := ⟨q.packets.c.erase packet⟩ }
  have hpop : onPackets MovablePriorityQueue.popValue q = .ok packet q₁ :=
    Method.zoom_of_ok (MovablePriorityQueue.popValue_of_top htop)
  have hsend : onShaper (BandwidthShaper.didSend now packet.length) q₁ =
      .ok () (q.sent now packet) :=
    Method.zoom_of_ok (BandwidthShaper.didSend_of_rate hrate hnow _)
  unfold popValue
  rw [Method.bind_of_ok hpop, Method.bind_of_ok hsend]
  rfl

theorem popValue_of_empty {q : ShapedPacketQueue} (h : q.packets.c = []) (now : Int) :
    popValue now q = .error (.runtimeError "pop_value: empty queue!") q := by
  have hpop : onPackets MovablePriorityQueue.popValue q =
      .error (.runtimeError "pop_value: empty queue!") q :=
    Method.zoom_of_error (MovablePriorityQueue.popValue_of_empty h)
  unfold popValue
  rw [Method.bind_of_error hpop]

/-- A `pop_value` that returns hands over the top and keeps every other packet. -/
theorem popValue_ok {q q' : ShapedPacketQueue} {now : Int} {packet : Bytes}
    (h : popValue now q = .ok packet q') :
    q.packets.top = some packet ∧ q'.packets.c = q.packets.c.erase packet := by
  unfold popValue at h
  obtain ⟨p, q₁, hpop, h⟩ := Method.bind_ok_iff.mp h
  obtain ⟨_, q₂, hsend, h⟩ := Method.bind_ok_iff.mp h
  obtain ⟨rfl, rfl⟩ := Method.pure_ok_iff.mp h
  obtain ⟨bag, hbag, rfl⟩ := Method.zoom_ok_iff.mp hpop
  obtain ⟨shaper, _, rfl⟩ := Method.zoom_ok_iff.mp hsend
  obtain ⟨htop, rfl⟩ := MovablePriorityQueue.popValue_ok_iff.mp hbag
  exact ⟨htop, rfl⟩

/-- The top is off the queue when the shaper is charged for it. -/
theorem popValue_apply {q : ShapedPacketQueue} {packet : Bytes}
    (htop : q.packets.top = some packet) (now : Int) : popValue now q =
      match BandwidthShaper.didSend now packet.length q.shaper with
      | .ok _ s => .ok packet { shaper := s, packets := ⟨q.packets.c.erase packet⟩ }
      | .error e s => .error e { shaper := s, packets := ⟨q.packets.c.erase packet⟩ } := by
  have hpop : onPackets MovablePriorityQueue.popValue q =
      .ok packet { q with packets := ⟨q.packets.c.erase packet⟩ } :=
    Method.zoom_of_ok (MovablePriorityQueue.popValue_of_top htop)
  unfold popValue
  rw [Method.bind_of_ok hpop, Method.bind_apply]
  unfold onShaper Method.zoom
  dsimp only
  cases BandwidthShaper.didSend now packet.length q.shaper <;> rfl

/-- The packets a `pop_value` leaves, also when the shaper throws. -/
theorem popValue_after {q : ShapedPacketQueue} {packet : Bytes}
    (htop : q.packets.top = some packet) (now : Int) :
    (Method.after (popValue now q)).packets.c = q.packets.c.erase packet := by
  rw [popValue_apply htop]
  cases BandwidthShaper.didSend now packet.length q.shaper <;> rfl

/-- A `pop_value` leaves the rate as it is, whatever becomes of it. -/
theorem popValue_kbps (now : Int) (q : ShapedPacketQueue) :
    (Method.after (popValue now q)).shaper.kbps = q.shaper.kbps := by
  cases htop : q.packets.top with
  | none =>
      rw [popValue_of_empty (top_eq_none_iff.mp htop)]
      rfl
  | some packet =>
      have hkbps := (BandwidthShaper.didSend_after q.shaper now packet.length).1
      rw [popValue_apply htop]
      cases hsend : BandwidthShaper.didSend now packet.length q.shaper with
      | ok _ s =>
          rw [hsend] at hkbps
          exact hkbps
      | error e s =>
          rw [hsend] at hkbps
          exact hkbps

/-- At a usable rate a `pop_value` does not divide by zero, whatever the clock reads. -/
theorem popValue_divides {q : ShapedPacketQueue} (hrate : BandwidthShaper.Rate q.shaper.kbps)
    (now : Int) : Method.NeverThrows .divisionByZero (popValue now) q := by
  unfold Method.NeverThrows
  cases htop : q.packets.top with
  | none =>
      rw [popValue_of_empty (top_eq_none_iff.mp htop)]
      simp
  | some packet =>
      have hsend := BandwidthShaper.didSend_divides hrate now packet.length
      unfold Method.NeverThrows at hsend
      rw [popValue_apply htop]
      cases hcase : BandwidthShaper.didSend now packet.length q.shaper with
      | ok _ s => simp
      | error e s =>
          rw [hcase] at hsend
          exact hsend

end ShapedPacketQueue

end FecRelay
