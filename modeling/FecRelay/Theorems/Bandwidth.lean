import FecRelay.Asio
import FecRelay.Base.LeakyBucket

/-!
# The subscribed bandwidth

`time_per_byte` is a whole number of nanoseconds, rounded down, so the modelled
buffer drains at least as fast as the subscriber asked for, and faster wherever
something was cut off. Sends always respect the rate of one byte every
`time_per_byte`; they respect the subscribed rate exactly where the two agree.
-/

namespace FecRelay.AsioReceiver

open FecRelay.Base
open FecRelay.BandwidthShaper (Rate perByte perByte_pos)
open FecRelay.Base.LeakyBucket (Bucket Fill Metered)

/-! ## Driving a queue -/

/-- A shaped queue with a buffer of `B` bytes, in the hands of `maybe_send`. -/
def withBuffer (kbps B : Nat) : AsioReceiver := { queue := ShapedPacketQueue.make kbps B }

/-- A packet is put into the queue, or `maybe_send` runs at a reading of the clock. -/
inductive Drive where
  | push (packet : Bytes)
  | maybeSend (now : Int)
  deriving DecidableEq, Repr

namespace Drive

def call : Drive → Method Fault AsioReceiver Unit
  | .push packet => onQueue (ShapedPacketQueue.push packet)
  | .maybeSend now => AsioReceiver.maybeSend now

def reading? : Drive → Option Int
  | .push _ => none
  | .maybeSend now => some now

def Step (r : AsioReceiver) (d : Drive) (r' : AsioReceiver) : Prop := r' = Method.after (d.call r)

/-- Packets are not larger than the buffer and the clock never goes backwards. -/
structure Fair (B : Nat) (ds : List Drive) : Prop where
  fits : ∀ packet, push packet ∈ ds → packet.length ≤ B
  clock : NeverBackwards (ds.filterMap reading?)

theorem Fair.of_snoc {B : Nat} {ds : List Drive} {d : Drive} (h : Fair B (ds ++ [d])) :
    Fair B ds := by
  refine ⟨fun packet hp => h.fits packet (List.mem_append_left _ hp), ?_⟩
  have hclock := h.clock
  rw [List.filterMap_append] at hclock
  unfold NeverBackwards at *
  rw [← List.cons_append, List.pairwise_append] at hclock
  exact hclock.1

end Drive

/-- The bytes sent from send `i` through send `j` fit into the buffer and what the
subscribed bandwidth carries away from the one to the other. -/
def HonoursBandwidth (kbps B : Nat) (xs : List Sent) : Prop :=
  ∀ i j, (hij : i ≤ j) → (hj : j < xs.length) →
    (((((xs.take (j + 1)).drop i).map (·.packet.length)).sum : Nat) : ℚ) ≤
      B + ((xs[j].time - xs[i].time : Int) : ℚ) * kbps / 8000000

/-! ## Sends as lumps in a leaky bucket -/

/-- The shaper's buffer as a bucket. -/
def bucket (s : BandwidthShaper) : Bucket ℚ :=
  { level := s.bufferUtilization, time := s.bufferUtilizationTp }

/-- A send as a lump put into the bucket. -/
def lump (x : Sent) : Fill ℚ := { time := x.time, amount := x.packet.length }

theorem total_lump (xs : List Sent) :
    LeakyBucket.total (xs.map lump) = (((xs.map (·.packet.length)).sum : Nat) : ℚ) := by
  induction xs with
  | nil => simp
  | cons x xs ih =>
      rw [List.map_cons, LeakyBucket.total_cons, ih]
      show (x.packet.length : ℚ) + _ = _
      rw [List.map_cons, List.sum_cons, Nat.cast_add]

/-- A send charges the bucket at no more than one byte every `time_per_byte`. -/
theorem SendStep.metered {q q' : ShapedPacketQueue} {x : Sent} (h : SendStep q x q')
    (hrate : Rate q.shaper.kbps)
    (hfits : (x.packet.length : Int) ≤ q.shaper.bufferSize) :
    Metered (perByte q.shaper.kbps : ℚ) (q.shaper.bufferSize : ℚ) (bucket q.shaper) (lump x)
      (bucket q'.shaper) := by
  have ht := perByte_pos hrate
  obtain ⟨due, hwhen, hdue⟩ := h.admitted
  rw [BandwidthShaper.whenCanSend_of_rate hrate] at hwhen
  cases hwhen
  rw [h.next]
  set e := x.time - q.shaper.bufferUtilizationTp with he
  set t := perByte q.shaper.kbps with htdef
  set level := BandwidthShaper.drained q.shaper.bufferUtilization (e / t) with hlevel
  have hcap := (BandwidthShaper.charged_le_bufferSize_iff ht hfits).mpr hdue
  refine ⟨rfl, ?_, ?_, ?_⟩
  · have hnonneg := BandwidthShaper.drained_nonneg q.shaper.bufferUtilization (e / t)
    show ((x.packet.length : ℕ) : ℚ) ≤ ((level + (x.packet.length : Int) : Int) : ℚ)
    exact_mod_cast (by omega : (x.packet.length : Int) ≤ level + x.packet.length)
  · -- whole bytes are read, which is no more than the time allows
    have hread : ((e / t : Int) : ℚ) ≤ (e : ℚ) / t := (LeakyBucket.quotient_bounds ht e).1
    have hleft : ((q.shaper.bufferUtilization - e / t : Int) : ℚ) ≤ (level : ℚ) := by
      exact_mod_cast BandwidthShaper.le_drained q.shaper.bufferUtilization (e / t)
    rw [Int.cast_sub] at hleft
    show (q.shaper.bufferUtilization : ℚ) - ((x.time : ℚ) - q.shaper.bufferUtilizationTp) / t +
      ((x.packet.length : ℕ) : ℚ) ≤ ((level + (x.packet.length : Int) : Int) : ℚ)
    have hcast : (e : ℚ) = (x.time : ℚ) - q.shaper.bufferUtilizationTp := by
      rw [he, Int.cast_sub]
    rw [← hcast, Int.cast_add, Int.cast_natCast]
    linarith
  · show ((level + (x.packet.length : Int) : Int) : ℚ) ≤ _
    exact_mod_cast hcap

/-! ## The invariant of a drive -/

/-- What a queue in the hands of `maybe_send` keeps between the passes. -/
structure Budget (kbps B : Nat) (now : Int) (q : ShapedPacketQueue) : Prop where
  rate_eq : q.shaper.kbps = kbps
  size_eq : q.shaper.bufferSize = B
  past : q.shaper.bufferUtilizationTp ≤ now
  fits : ∀ packet ∈ q.packets.c, packet.length ≤ B

/-- What holds of a receiver after the drive `ds`. -/
structure Driven (kbps B : Nat) (ds : List Drive) (r : AsioReceiver) : Prop where
  budget : ∀ now, (∀ t ∈ 0 :: ds.filterMap Drive.reading?, t ≤ now) → Budget kbps B now r.queue
  metered : Run (Metered (perByte kbps : ℚ) (B : ℚ)) { level := 0, time := 0 }
    (r.sent.map lump) (bucket r.queue.shaper)

theorem driven_withBuffer (kbps B : Nat) : Driven kbps B [] (withBuffer kbps B) where
  budget now hnow := ⟨rfl, rfl, hnow 0 (by simp), fun packet hp => absurd hp List.not_mem_nil⟩
  metered := by
    have hempty : bucket (withBuffer kbps B).queue.shaper = { level := 0, time := 0 } := by
      simp [bucket, withBuffer, ShapedPacketQueue.make]
    rw [hempty]
    exact .nil _

/-- The sends of one pass are lumps in the bucket. -/
theorem Budget.sends {kbps B : Nat} (hrate : Rate kbps) {now : Int} {q q' : ShapedPacketQueue}
    {xs : List Sent} (h : Budget kbps B now q) (hrun : Run SendStep q xs q')
    (htimes : ∀ x ∈ xs, x.time = now) :
    Budget kbps B now q' ∧
      Run (Metered (perByte kbps : ℚ) (B : ℚ)) (bucket q.shaper) (xs.map lump)
        (bucket q'.shaper) := by
  refine Run.simulate (fun q => bucket q.shaper) lump ?_ hrun htimes h
  intro s x t hs hx hstep
  have hfits : (x.packet.length : Int) ≤ s.shaper.bufferSize := by
    rw [hs.size_eq]
    exact_mod_cast hs.fits x.packet (PriorityBag.top_mem hstep.top)
  have hmetered := hstep.metered (hs.rate_eq ▸ hrate) hfits
  rw [hs.rate_eq, hs.size_eq, Int.cast_natCast] at hmetered
  refine ⟨?_, hmetered⟩
  rw [hstep.next]
  refine ⟨hs.rate_eq, hs.size_eq, le_of_eq hx, ?_⟩
  intro packet hp
  exact hs.fits packet (List.mem_of_mem_erase hp)

theorem Driven.step {kbps B : Nat} (hrate : Rate kbps) {ds : List Drive} {d : Drive}
    {r r' : AsioReceiver} (h : Driven kbps B ds r) (hfair : Drive.Fair B (ds ++ [d]))
    (hstep : Drive.Step r d r') : Driven kbps B (ds ++ [d]) r' := by
  cases d with
  | push packet =>
      have hr' : r' = { r with
          queue := { r.queue with packets := ⟨r.queue.packets.c ++ [packet]⟩ } } := hstep
      subst hr'
      refine ⟨?_, h.metered⟩
      intro now hnow
      have hbefore : ∀ t ∈ 0 :: ds.filterMap Drive.reading?, t ≤ now := by
        intro t ht
        apply hnow t
        rw [List.filterMap_append, ← List.cons_append]
        exact List.mem_append_left _ ht
      have hbudget := h.budget now hbefore
      refine ⟨hbudget.rate_eq, hbudget.size_eq, hbudget.past, ?_⟩
      intro p hp
      rcases List.mem_append.mp hp with hp | hp
      · exact hbudget.fits p hp
      · rw [List.mem_singleton.mp hp]
        exact hfair.fits packet (by simp)
  | maybeSend now =>
      have hclock : NeverBackwards (ds.filterMap Drive.reading? ++ [now]) := by
        have hclock := hfair.clock
        rwa [List.filterMap_append] at hclock
      have hbudget := h.budget now hclock.le_last
      have hready : Ready now r.queue := ⟨hbudget.rate_eq ▸ hrate, hbudget.past⟩
      obtain ⟨r₁, hcall, xs, q', hrun, htimes, hout⟩ := maybeSend_spec hready
      have hr' : r' = r₁ := by
        rw [show r' = Method.after (maybeSend now r) from hstep, hcall]
        rfl
      obtain ⟨hbudget', hlumps⟩ := hbudget.sends hrate hrun htimes
      -- whether or not packets are left, these are the queue and the record
      have hqueue : r'.queue = q' ∧ r'.sent = r.sent ++ xs := by
        rcases hout with ⟨_, rfl⟩ | ⟨_, t, _, rfl⟩
        · exact hr' ▸ ⟨rfl, rfl⟩
        · exact hr' ▸ ⟨rfl, rfl⟩
      refine ⟨?_, ?_⟩
      · intro later hlater
        have hle : now ≤ later := hlater now (by simp [Drive.reading?])
        rw [hqueue.1]
        exact ⟨hbudget'.rate_eq, hbudget'.size_eq, le_trans hbudget'.past hle, hbudget'.fits⟩
      · rw [hqueue.1, hqueue.2, List.map_append]
        exact h.metered.append hlumps

theorem driven_run {kbps B : Nat} (hrate : Rate kbps) {ds : List Drive} {r : AsioReceiver}
    (hrun : Run Drive.Step (withBuffer kbps B) ds r) (hfair : Drive.Fair B ds) :
    Driven kbps B ds r := by
  induction hrun with
  | nil => exact driven_withBuffer kbps B
  | @snoc r r' ds d hrun hstep ih => exact (ih hfair.of_snoc).step hrate hfair hstep

/-! ## The rate of one byte every `time_per_byte` -/

/-- Send `i` through send `j` respect the rate the shaper divides by. -/
theorem Driven.window {kbps B : Nat} {ds : List Drive} {r : AsioReceiver}
    (h : Driven kbps B ds r) {i j : Nat} (hij : i ≤ j) (hj : j < r.sent.length) :
    (((((r.sent.take (j + 1)).drop i).map (·.packet.length)).sum : Nat) : ℚ) ≤
      B + ((r.sent[j].time - r.sent[i].time : Int) : ℚ) / perByte kbps := by
  have hj' : j < (r.sent.map lump).length := by rwa [List.length_map]
  have hbound := LeakyBucket.window h.metered hij hj'
  rw [← List.map_take, ← List.map_drop, total_lump, List.getElem_map, List.getElem_map] at hbound
  rw [Int.cast_sub]
  exact hbound

/-- Where nothing was cut off `time_per_byte`, its rate is the subscribed one. -/
theorem perByte_mul_kbps {kbps : Nat} (h : kbps ∣ 8000000) :
    perByte kbps * kbps = 8000000 :=
  Int.ediv_mul_cancel (by exact_mod_cast h)

/-- Where something was cut off, `kbps` bytes take less than their time. -/
theorem perByte_mul_kbps_lt {kbps : Nat} (hrate : Rate kbps) (h : ¬kbps ∣ 8000000) :
    perByte kbps * kbps < 8000000 := by
  have hne : perByte kbps * kbps ≠ 8000000 := by
    intro heq
    exact h (by exact_mod_cast Dvd.intro_left (perByte kbps) heq)
  have hle : perByte kbps * kbps ≤ 8000000 := Int.ediv_mul_le _ (by have := hrate.1; omega)
  omega

theorem Driven.honours_of_dvd {kbps B : Nat} (hrate : Rate kbps) (hdvd : kbps ∣ 8000000)
    {ds : List Drive} {r : AsioReceiver} (h : Driven kbps B ds r) :
    HonoursBandwidth kbps B r.sent := by
  intro i j hij hj
  have hbound := h.window hij hj
  have ht : (0 : ℚ) < perByte kbps := by exact_mod_cast perByte_pos hrate
  have hexact : (perByte kbps : ℚ) * kbps = 8000000 := by exact_mod_cast perByte_mul_kbps hdvd
  have hsame : ∀ e : ℚ, e / perByte kbps = e * kbps / 8000000 := by
    intro e
    rw [div_eq_div_iff (ne_of_gt ht) (by norm_num), ← hexact]
    ring
  rwa [hsame] at hbound

/-- An empty buffer admits only empty packets. -/
theorem Driven.honours_of_empty {kbps : Nat} (hrate : Rate kbps) {ds : List Drive}
    {r : AsioReceiver} (h : Driven kbps 0 ds r) : HonoursBandwidth kbps 0 r.sent := by
  intro i j hij hj
  have hempty : (((r.sent.take (j + 1)).drop i).map (·.packet.length)).sum = 0 := by
    rw [List.sum_eq_zero_iff]
    intro n hn
    obtain ⟨x, hx, rfl⟩ := List.mem_map.mp hn
    have hmem : x ∈ r.sent := List.mem_of_mem_take (List.mem_of_mem_drop hx)
    have hle := LeakyBucket.amount_le_of_metered h.metered (lump x) (List.mem_map_of_mem hmem)
    have hle' : (x.packet.length : ℚ) ≤ ((0 : Nat) : ℚ) := hle
    have hle'' : x.packet.length ≤ 0 := by exact_mod_cast hle'
    omega
  -- no time went backwards, or the shaper's own bound would be broken
  have hbound := h.window hij hj
  have ht : (0 : ℚ) < perByte kbps := by exact_mod_cast perByte_pos hrate
  rw [hempty, Nat.cast_zero, zero_add] at hbound ⊢
  have helapsed : (0 : ℚ) ≤ ((r.sent[j].time - r.sent[i].time : Int) : ℚ) := by
    rcases div_nonneg_iff.mp hbound with ⟨hnonneg, _⟩ | ⟨_, hneg⟩
    · exact hnonneg
    · exact absurd ht (not_lt.mpr hneg)
  positivity

/-! ## The rate is overrun -/

/-- A pass over a queue of one packet that is due sends it. -/
theorem maybeSend_of_single {now : Int} {r : AsioReceiver} (hready : Ready now r.queue)
    {packet : Bytes} (hc : r.queue.packets.c = [packet]) (hdue : r.queue.due packet ≤ now) :
    maybeSend now r = .ok () { r with
      queue := r.queue.sent now packet
      sent := r.sent ++ [{ time := now, packet := packet, shaper := r.queue.shaper }] } := by
  have htop : r.queue.packets.top = some packet := by
    unfold MovablePriorityQueue.top
    rw [hc]
    rfl
  have hleft : (r.queue.sent now packet).packets.c = [] := by
    show r.queue.packets.c.erase packet = []
    rw [hc, List.erase_cons_head]
  apply maybeSend_of_loop_empty
  rw [sendLoop_of_due hready htop hdue, hc]
  exact sendLoop_of_empty hleft 0

/-- A full buffer is sent at once, and one byte more when the shaper takes the first
byte for gone. -/
def overrun (kbps B : Nat) : List Drive :=
  [.push (List.replicate B 0), .maybeSend 0, .push [0], .maybeSend (perByte kbps)]

theorem fair_overrun {kbps B : Nat} (hrate : Rate kbps) (hB : 0 < B) :
    Drive.Fair B (overrun kbps B) := by
  have ht := perByte_pos hrate
  refine ⟨?_, ?_⟩
  · intro packet hp
    have hcases : packet = List.replicate B 0 ∨ packet = [0] := by simpa [overrun] using hp
    rcases hcases with rfl | rfl
    · exact le_of_eq List.length_replicate
    · exact hB
  · show [0, 0, perByte kbps].Pairwise (· ≤ ·)
    simp [ht.le]

theorem overrun_sends {kbps B : Nat} (hrate : Rate kbps) :
    ∃ r s₁ s₂, Run Drive.Step (withBuffer kbps B) (overrun kbps B) r ∧
      r.sent = [{ time := 0, packet := List.replicate B 0, shaper := s₁ },
        { time := perByte kbps, packet := [0], shaper := s₂ }] := by
  have ht := perByte_pos hrate
  let r₁ : AsioReceiver := { withBuffer kbps B with
    queue := { (withBuffer kbps B).queue with packets := ⟨[List.replicate B 0]⟩ } }
  have hready₁ : Ready 0 r₁.queue := ⟨hrate, le_rfl⟩
  have hdue₁ : r₁.queue.due (List.replicate B 0) ≤ 0 := by
    show (0 : Int) + (0 + ((List.replicate B (0 : UInt8)).length : Int) - (B : Int)) * _ ≤ 0
    rw [List.length_replicate]
    simp
  have hsend₁ := maybeSend_of_single hready₁ rfl hdue₁
  set r₂ : AsioReceiver := { r₁ with
    queue := r₁.queue.sent 0 (List.replicate B 0)
    sent := r₁.sent ++ [{ time := 0, packet := List.replicate B 0, shaper := r₁.queue.shaper }] }
    with hr₂
  let r₃ : AsioReceiver := { r₂ with
    queue := { r₂.queue with packets := ⟨r₂.queue.packets.c ++ [[0]]⟩ } }
  have hready₃ : Ready (perByte kbps) r₃.queue := ⟨hrate, ht.le⟩
  have hleft : r₃.queue.packets.c = [[0]] := by
    show [List.replicate B 0].erase (List.replicate B 0) ++ [[0]] = [[0]]
    rw [List.erase_cons_head]
    rfl
  have hdue₃ : r₃.queue.due [0] ≤ perByte kbps := by
    -- the level at time zero is the buffer's size
    have hlevel : r₃.queue.shaper.bufferUtilization = B := by
      show BandwidthShaper.drained 0 ((0 - 0) / perByte kbps) +
        ((List.replicate B (0 : UInt8)).length : Int) = B
      rw [List.length_replicate]
      simp [BandwidthShaper.drained]
    show (0 : Int) + (r₃.queue.shaper.bufferUtilization + 1 - (B : Int)) * perByte kbps ≤ _
    rw [hlevel]
    ring_nf
    exact le_rfl
  have hsend₃ := maybeSend_of_single hready₃ hleft hdue₃
  have h₁ : Drive.Step (withBuffer kbps B) (.push (List.replicate B 0)) r₁ := rfl
  have h₂ : Drive.Step r₁ (.maybeSend 0) r₂ := (congrArg Method.after hsend₁).symm
  have h₃ : Drive.Step r₂ (.push [0]) r₃ := rfl
  have h₄ : Drive.Step r₃ (.maybeSend (perByte kbps)) _ := (congrArg Method.after hsend₃).symm
  exact ⟨_, r₁.queue.shaper, r₃.queue.shaper,
    Run.cons h₁ (Run.cons h₂ (Run.cons h₃ (Run.single h₄))), rfl⟩

/-- One byte more than the buffer goes out before the subscribed rate carried a byte away. -/
theorem overrun_not_honoured {kbps B : Nat} (hrate : Rate kbps) (hdvd : ¬kbps ∣ 8000000)
    {xs : List Sent} {s₁ s₂ : BandwidthShaper}
    (hxs : xs = [{ time := 0, packet := List.replicate B 0, shaper := s₁ },
      { time := perByte kbps, packet := [0], shaper := s₂ }]) :
    ¬HonoursBandwidth kbps B xs := by
  intro h
  subst hxs
  have hwindow := h 0 1 (by decide) (by simp)
  have hshort : (perByte kbps : ℚ) * kbps < 8000000 := by
    exact_mod_cast perByte_mul_kbps_lt hrate hdvd
  simp at hwindow
  rw [le_div_iff₀ (by norm_num)] at hwindow
  linarith

/-- **The subscribed bandwidth is honoured** in every drive exactly where the bandwidth
has a whole number of nanoseconds per byte, or there is no buffer to send from. -/
theorem honours_bandwidth_iff {kbps : Nat} (hrate : Rate kbps) (B : Nat) :
    (∀ ds r, Run Drive.Step (withBuffer kbps B) ds r → Drive.Fair B ds →
      HonoursBandwidth kbps B r.sent) ↔ kbps ∣ 8000000 ∨ B = 0 := by
  refine ⟨?_, ?_⟩
  · intro hall
    by_contra hcond
    obtain ⟨hdvd, hB⟩ := not_or.mp hcond
    obtain ⟨r, s₁, s₂, hrun, hsent⟩ := @overrun_sends kbps B hrate
    exact overrun_not_honoured hrate hdvd hsent
      (hall _ r hrun (fair_overrun hrate (Nat.pos_of_ne_zero hB)))
  · intro hcond ds r hrun hfair
    have hdriven := driven_run hrate hrun hfair
    rcases hcond with hdvd | rfl
    · exact hdriven.honours_of_dvd hrate hdvd
    · exact hdriven.honours_of_empty hrate

/-- At 8000 kbit/s a byte takes a microsecond. -/
theorem honours_bandwidth_iff_8000 : Rate 8000 ∧
    ((∀ ds r, Run Drive.Step (withBuffer 8000 5000) ds r → Drive.Fair 5000 ds →
      HonoursBandwidth 8000 5000 r.sent) ↔ 8000 ∣ 8000000 ∨ 5000 = 0) :=
  ⟨by decide, honours_bandwidth_iff (by decide) 5000⟩

/-- At 3 000 000 kbit/s, two and two thirds of a nanosecond per byte, 5001 bytes go out
within two nanoseconds through a buffer of 5000. -/
theorem bandwidth_overrun_3000000 :
    ∃ r, Run Drive.Step (withBuffer 3000000 5000) [.push (List.replicate 5000 0), .maybeSend 0,
        .push [0], .maybeSend 2] r ∧
      Drive.Fair 5000 [.push (List.replicate 5000 0), .maybeSend 0, .push [0], .maybeSend 2] ∧
      ¬HonoursBandwidth 3000000 5000 r.sent := by
  have hrate : Rate 3000000 := by decide
  obtain ⟨r, s₁, s₂, hrun, hsent⟩ := @overrun_sends 3000000 5000 hrate
  exact ⟨r, hrun, fair_overrun hrate (by decide), overrun_not_honoured hrate (by decide) hsent⟩

end FecRelay.AsioReceiver
