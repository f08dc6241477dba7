import FecRelay.Asio

/-!
# A receiver loses, duplicates and strands nothing

At a usable rate and with a clock that never goes backwards, a receiver waits
for its timer exactly while it holds packets, and every packet it was given is
either sent once or still queued once. `Settled` is the invariant; one flush of
the queue re-establishes it, and both kinds of event end in a flush or in a plain
push behind packets that are already being waited for.
-/

namespace FecRelay.AsioReceiver

open FecRelay.Base

/-! ## Runs of sends -/

/-- Sends move packets from the queue to the record, and nothing else. -/
theorem sends_perm {q q' : ShapedPacketQueue} {xs : List Sent} (h : Run SendStep q xs q') :
    (xs.map (·.packet) ++ q'.packets.c).Perm q.packets.c := by
  induction h with
  | nil => exact List.Perm.refl _
  | @snoc t u xs x _ hstep ih =>
      have htake : (x.packet :: u.packets.c).Perm t.packets.c := by
        rw [hstep.next]
        exact PriorityBag.perm_top_cons_erase hstep.top
      rw [List.map_append, List.append_assoc]
      exact (List.Perm.append_left _ htake).trans ih

theorem sends_admitted {q q' : ShapedPacketQueue} {xs : List Sent} (h : Run SendStep q xs q') :
    ∀ x ∈ xs, Admits x.shaper x.time x.packet.length := by
  induction h with
  | nil => intro x hx; exact absurd hx (List.not_mem_nil)
  | snoc _ hstep ih =>
      intro x hx
      rcases List.mem_append.mp hx with hx | hx
      · exact ih x hx
      · rw [List.mem_singleton.mp hx, hstep.shaper]
        exact hstep.admitted

/-- A run of sends at one clock reading keeps the queue ready for that reading. -/
theorem sends_ready {now : Int} {q q' : ShapedPacketQueue} {xs : List Sent}
    (h : Run SendStep q xs q') (htimes : ∀ x ∈ xs, x.time = now) (hready : Ready now q) :
    Ready now q' := by
  refine Run.invariant_of_events ?_ h htimes hready
  intro s x t hs hx hstep
  rw [hstep.next, hx]
  exact hs.sent x.packet

/-! ## The invariant -/

/-- What holds of a receiver after the events `es`. -/
structure Settled (es : List Event) (r : AsioReceiver) : Prop where
  ready : ∀ now, (∀ t ∈ 0 :: es.map Event.reading, t ≤ now) → Ready now r.queue
  waiting : 0 < r.timer.waits ↔ r.queue.packets.c ≠ []
  single : r.timer.waits ≤ 1
  unaborted : r.timer.aborted = 0
  conserved : (r.sent.map (·.packet) ++ r.queue.packets.c).Perm (es.filterMap Event.packet?)
  admitted : ∀ x ∈ r.sent, Admits x.shaper x.time x.packet.length

theorem settled_make {kbps : Nat} (hrate : BandwidthShaper.Rate kbps) :
    Settled [] (make kbps) where
  ready now hnow := ⟨hrate, hnow 0 (by simp)⟩
  waiting := by simp [make, ShapedPacketQueue.make]
  single := Nat.zero_le 1
  unaborted := rfl
  conserved := List.Perm.refl _
  admitted x hx := absurd hx (List.not_mem_nil)

/-- A flush settles a receiver whose timer is idle. -/
theorem Flushed.settled {es : List Event} {e : Event} {r r' : AsioReceiver}
    (h : Flushed e.reading r r') (hready : Ready e.reading r.queue)
    (hidle : r.timer.waits = 0) (hunaborted : r.timer.aborted = 0)
    (hconserved : (r.sent.map (·.packet) ++ r.queue.packets.c).Perm
      ((es ++ [e]).filterMap Event.packet?))
    (hadmitted : ∀ x ∈ r.sent, Admits x.shaper x.time x.packet.length) :
    Settled (es ++ [e]) r' := by
  obtain ⟨xs, q', hrun, htimes, hout⟩ := h
  have hsettled : Ready e.reading q' := sends_ready hrun htimes hready
  have hlater : ∀ now, (∀ t ∈ 0 :: (es ++ [e]).map Event.reading, t ≤ now) → Ready now q' := by
    intro now hnow
    exact ⟨hsettled.1, le_trans hsettled.2 (hnow _ (by simp))⟩
  have hperm : ((r.sent ++ xs).map (·.packet) ++ q'.packets.c).Perm
      ((es ++ [e]).filterMap Event.packet?) := by
    rw [List.map_append, List.append_assoc]
    exact (List.Perm.append_left _ (sends_perm hrun)).trans hconserved
  have hall : ∀ x ∈ r.sent ++ xs, Admits x.shaper x.time x.packet.length := by
    intro x hx
    rcases List.mem_append.mp hx with hx | hx
    · exact hadmitted x hx
    · exact sends_admitted hrun x hx
  rcases hout with ⟨hnil, rfl⟩ | ⟨hne, t, _, rfl⟩
  · -- the queue ran empty: no wait is started
    exact ⟨hlater, by simp [hidle, hnil], by simp [hidle], hunaborted, hperm, hall⟩
  · -- packets are left: the one wait is the one just started
    refine ⟨hlater, ?_, ?_, ?_, hperm, hall⟩
    · simp [Timer.expiresAt, Timer.asyncWait, hne]
    · simp [Timer.expiresAt, Timer.asyncWait]
    · simp [Timer.expiresAt, Timer.asyncWait, hidle, hunaborted]

/-- No event throws on a settled receiver, and the receiver stays settled. -/
theorem Settled.step {es : List Event} {e : Event} {r r' : AsioReceiver} (h : Settled es r)
    (hclock : NeverBackwards ((es ++ [e]).map Event.reading)) (hstep : Step r e r') :
    e.call r = .ok () r' ∧ Settled (es ++ [e]) r' := by
  rw [List.map_append] at hclock
  have hready : Ready e.reading r.queue := h.ready e.reading hclock.le_last
  cases e with
  | queuePacket now packet =>
      obtain ⟨r₁, hcall, hcase⟩ := @queuePacket_spec now packet r hready
      have hr' : r' = r₁ := by
        rw [hstep.result]
        exact congrArg Method.after hcall
      subst hr'
      refine ⟨hcall, ?_⟩
      have hconserved : ((r.enqueued packet).sent.map (·.packet) ++
          (r.enqueued packet).queue.packets.c).Perm
          ((es ++ [Event.queuePacket now packet]).filterMap Event.packet?) := by
        show (r.sent.map (·.packet) ++ (r.queue.packets.c ++ [packet])).Perm _
        rw [← List.append_assoc, List.filterMap_append]
        exact h.conserved.append_right _
      rcases hcase with ⟨hne, rfl⟩ | ⟨hnil, hflush⟩
      · -- the packet joins others, whose wait is outstanding
        refine ⟨?_, ?_, h.single, h.unaborted, hconserved, h.admitted⟩
        · intro t ht
          refine h.ready t fun s hs => ht s ?_
          rw [List.map_append]
          show s ∈ (0 :: es.map Event.reading) ++ _
          exact List.mem_append_left _ hs
        · simp [enqueued, h.waiting.mpr hne]
      · -- the queue was empty, so no wait was outstanding
        have hidle : r.timer.waits = 0 := by
          by_contra hne
          exact h.waiting.mp (Nat.pos_of_ne_zero hne) hnil
        have hflush : Flushed (Event.queuePacket now packet).reading _ _ := hflush
        exact hflush.settled hready hidle h.unaborted hconserved h.admitted
  | timerExpires now =>
      obtain ⟨r₁, hcall, hflush⟩ := waitDone_spec hready
      have hr' : r' = r₁ := by
        rw [hstep.result]
        exact congrArg Method.after hcall
      subst hr'
      have hidle : r.timer.waits - 1 = 0 := by
        have := h.single
        omega
      have hconserved : (r.sent.map (·.packet) ++ r.queue.packets.c).Perm
          ((es ++ [Event.timerExpires now]).filterMap Event.packet?) := by
        rw [List.filterMap_append]
        show (r.sent.map (·.packet) ++ r.queue.packets.c).Perm
          (es.filterMap Event.packet? ++ [])
        rw [List.append_nil]
        exact h.conserved
      exact ⟨hcall, hflush.settled hready hidle h.unaborted hconserved h.admitted⟩

theorem settled_run {kbps : Nat} (hrate : BandwidthShaper.Rate kbps) {es : List Event}
    {r : AsioReceiver} (hrun : Run Step (make kbps) es r)
    (hclock : NeverBackwards (es.map Event.reading)) : Settled es r := by
  induction hrun with
  | nil => exact settled_make hrate
  | @snoc t r es e hrun hstep ih =>
      have hbefore : NeverBackwards (es.map Event.reading) := by
        rw [List.map_append] at hclock
        exact hclock.of_snoc
      exact ((ih hbefore).step hclock hstep).2

/-! ## The law of the receiver -/

/-- After every step of every run: a wait is outstanding iff the queue is not
empty, there is at most one and none was cancelled, the packets sent and the
packets queued are together the packets queued so far, each as often as it was
queued, and every send waited for `when_can_send` as the shaper stood then. -/
theorem loses_and_strands_nothing {kbps : Nat} (hrate : BandwidthShaper.Rate kbps)
    {es : List Event} {r : AsioReceiver} (hrun : Run Step (make kbps) es r)
    (hclock : NeverBackwards (es.map Event.reading)) :
    (0 < r.timer.waits ↔ r.queue.empty = false) ∧
      (r.timer.waits ≤ 1 ∧ r.timer.aborted = 0) ∧
      (r.sent.map (·.packet) ++ r.queue.packets.c).Perm (es.filterMap Event.packet?) ∧
      ∀ x ∈ r.sent, ∃ t, x.shaper.whenCanSend x.packet.length = .ok t ∧ t ≤ x.time := by
  have h := settled_run hrate hrun hclock
  refine ⟨?_, ⟨h.single, h.unaborted⟩, h.conserved, h.admitted⟩
  rw [h.waiting, Bool.eq_false_iff, ne_eq, ne_eq, ShapedPacketQueue.empty_iff]

/-- Two packets of 3000 bytes at one byte per microsecond. The second is waited for until the
buffer of 5000 bytes has room for it. -/
theorem loses_and_strands_nothing_second_waits :
    let es := [Event.queuePacket 0 (List.replicate 3000 1),
      Event.queuePacket 0 (List.replicate 3000 2)]
    let es' := es ++ [Event.timerExpires 1000000]
    ∃ r r', Run Step (make 8000) es r ∧ r.timer.waits = 1 ∧ r.sent.length = 1 ∧
      Step r (.timerExpires 1000000) r' ∧ r'.sent.length = 2 ∧
      (0 < r'.timer.waits ↔ r'.queue.empty = false) ∧
      (r'.timer.waits ≤ 1 ∧ r'.timer.aborted = 0) ∧
      (r'.sent.map (·.packet) ++ r'.queue.packets.c).Perm (es'.filterMap Event.packet?) ∧
      ∀ x ∈ r'.sent, ∃ t, x.shaper.whenCanSend x.packet.length = .ok t ∧ t ≤ x.time := by
  intro es es'
  let second : AsioReceiver := Method.after (queuePacket 0 (List.replicate 3000 2)
    (Method.after (queuePacket 0 (List.replicate 3000 1) (make 8000))))
  have hrun : Run Step (make 8000) es second :=
    Run.cons ⟨nofun, rfl⟩ (Run.single ⟨nofun, rfl⟩)
  have hwaits : second.timer.waits = 1 ∧ second.sent.length = 1 := by decide +kernel
  have hexpires : Step second (.timerExpires 1000000) (Method.after (waitDone 1000000 second)) :=
    ⟨fun _ => by rw [hwaits.1]; exact Nat.one_pos, rfl⟩
  have hclock : NeverBackwards (es'.map Event.reading) := by
    show [0, 0, 0, 1000000].Pairwise (· ≤ ·)
    decide
  exact ⟨_, _, hrun, hwaits.1, hwaits.2, hexpires, by decide +kernel,
    loses_and_strands_nothing (by decide) (hrun.snoc hexpires) hclock⟩

end FecRelay.AsioReceiver
