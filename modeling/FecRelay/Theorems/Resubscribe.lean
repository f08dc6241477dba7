import FecRelay.Theorems.BlockRelay
import FecRelay.Theorems.Division

/-!
# What a repeated subscription does to packets that wait

A subscriber that subscribes anew gets a new receiver, which is moved over the old one. The
packets that the old one held are gone, and the wait for its timer is cancelled, so that its
handler throws. Nothing is lost exactly if the old receiver held nothing: from then on every
packet that is queued is sent once, or is held once and waited for.
-/

namespace FecRelay

open FecRelay.Base

/-! ## Receivers -/

namespace AsioReceiver

variable {r r' r'' : AsioReceiver}

/-- A receiver waits while it holds packets, and has at most one wait outstanding. -/
structure Watched (r : AsioReceiver) : Prop where
  waiting : 0 < r.timer.waits ↔ r.queue.packets.c ≠ []
  single : r.timer.waits ≤ 1

/-- What became of a receiver: the packets it held and those queued since were each sent
once or are held once, and no wait was cancelled. -/
structure Delivered (r r' : AsioReceiver) : Prop where
  accounted : ∃ sent queued, r'.sent = r.sent ++ sent ∧ r'.queued = r.queued ++ queued ∧
    (sent.map (·.packet) ++ r'.queue.packets.c).Perm (r.queue.packets.c ++ queued)
  unaborted : r'.timer.aborted = r.timer.aborted
  watched : r'.Watched

theorem Watched.delivered (h : r.Watched) : r.Delivered r where
  accounted := ⟨[], [], by simp, by simp, by simp⟩
  unaborted := rfl
  watched := h

theorem Delivered.trans (h : r.Delivered r') (h' : r'.Delivered r'') : r.Delivered r'' := by
  obtain ⟨sent, queued, hsent, hqueued, hperm⟩ := h.accounted
  obtain ⟨sent', queued', hsent', hqueued', hperm'⟩ := h'.accounted
  refine ⟨⟨sent ++ sent', queued ++ queued', ?_, ?_, ?_⟩, h'.unaborted.trans h.unaborted,
    h'.watched⟩
  · rw [hsent', hsent, List.append_assoc]
  · rw [hqueued', hqueued, List.append_assoc]
  · have hlater : (sent.map (·.packet) ++ (sent'.map (·.packet) ++ r''.queue.packets.c)).Perm
        ((sent.map (·.packet) ++ r'.queue.packets.c) ++ queued') := by
      rw [List.append_assoc]
      exact hperm'.append_left _
    have hall := hlater.trans (hperm.append_right queued')
    simpa using hall

/-- What a pass of the loop did that returned, whatever the rate and the clock. -/
theorem sendLoop_ok {now : Int} {next : Deadline} :
    ∀ {rounds : Nat} {r : AsioReceiver}, sendLoop now rounds r = .ok next r' →
      ∃ sent, r'.sent = r.sent ++ sent ∧ r'.queued = r.queued ∧ r'.timer = r.timer ∧
        (sent.map (·.packet) ++ r'.queue.packets.c).Perm r.queue.packets.c ∧
        (next = .farFuture ↔ r'.queue.packets.c = []) := by
  intro rounds
  induction rounds with
  | zero =>
      intro r h
      cases h
  | succ rounds ih =>
      intro r h
      rw [sendLoop, Method.bind_of_ok (Method.get_apply r)] at h
      obtain ⟨d, hd, h⟩ := Method.lift_bind_ok_iff.mp h
      by_cases hreached : d.reached now = true
      · rw [if_pos hreached] at h
        obtain ⟨packet, r₁, hpop, h⟩ := Method.bind_ok_iff.mp h
        obtain ⟨q, hq, rfl⟩ := Method.zoom_ok_iff.mp hpop
        obtain ⟨htop, hrest⟩ := ShapedPacketQueue.popValue_ok hq
        obtain ⟨sent, hsent, hqueued, htimer, hperm, hend⟩ := ih h
        refine ⟨{ time := now, packet := packet, shaper := r.queue.shaper } :: sent, ?_, hqueued,
          htimer, ?_, hend⟩
        · rw [hsent]
          simp
        · have hrest : q.packets.c = r.queue.packets.c.erase packet := hrest
          have htaken : (packet :: q.packets.c).Perm r.queue.packets.c := by
            rw [hrest]
            exact PriorityBag.perm_top_cons_erase htop
          exact (hperm.cons packet).trans htaken
      · rw [if_neg hreached] at h
        obtain ⟨rfl, rfl⟩ := Method.pure_ok_iff.mp h
        refine ⟨[], by simp, rfl, rfl, by simp, ?_⟩
        unfold ShapedPacketQueue.whenCanPop at hd
        cases htop : r.queue.packets.top with
        | none =>
            rw [htop] at hd
            cases hd
            simp [ShapedPacketQueue.top_eq_none_iff.mp htop]
        | some packet =>
            rw [htop] at hd
            have hne : r.queue.packets.c ≠ [] := by
              intro hnil
              rw [ShapedPacketQueue.top_of_empty hnil] at htop
              cases htop
            cases hsend : r.queue.shaper.whenCanSend packet.length with
            | error e => simp [hsend] at hd
            | ok t =>
                simp only [hsend] at hd
                cases hd
                simp [hne]

/-- A pass that is made while no wait is outstanding leaves the receiver watched. -/
theorem maybeSend_delivered {now : Int} (hidle : r.timer.waits = 0)
    (h : maybeSend now r = .ok () r') : ∃ sent, r'.sent = r.sent ++ sent ∧
      r'.queued = r.queued ∧ r'.timer.aborted = r.timer.aborted ∧
      (sent.map (·.packet) ++ r'.queue.packets.c).Perm r.queue.packets.c ∧ r'.Watched := by
  rw [maybeSend, Method.bind_of_ok (Method.get_apply r)] at h
  obtain ⟨next, r₁, hloop, h⟩ := Method.bind_ok_iff.mp h
  obtain ⟨sent, hsent, hqueued, htimer, hperm, hend⟩ := sendLoop_ok hloop
  cases next with
  | farFuture =>
      cases h
      have hempty := hend.mp rfl
      refine ⟨sent, hsent, hqueued, by rw [htimer], hperm, ?_, ?_⟩
      · simp [htimer, hidle, hempty]
      · simp [htimer, hidle]
  | due t =>
      cases h
      have hne : r₁.queue.packets.c ≠ [] := by simpa using hend
      refine ⟨sent, hsent, hqueued, ?_, hperm, ?_, ?_⟩
      · simp [Timer.expiresAt, Timer.asyncWait, htimer, hidle]
      · simp [Timer.expiresAt, Timer.asyncWait, hne]
      · simp [Timer.expiresAt, Timer.asyncWait]

theorem Watched.idle (h : r.Watched) (hempty : r.queue.packets.c = []) : r.timer.waits = 0 := by
  by_contra hne
  exact h.waiting.mp (Nat.pos_of_ne_zero hne) hempty

theorem Watched.queuePacket (h : r.Watched) {now : Int} {packet : Bytes}
    (hcall : queuePacket now packet r = .ok () r') : r.Delivered r' := by
  rw [queuePacket_apply] at hcall
  by_cases hempty : r.queue.empty = true
  · rw [if_pos hempty] at hcall
    have hidle := h.idle (ShapedPacketQueue.empty_iff.mp hempty)
    obtain ⟨sent, hsent, hqueued, haborted, hperm, hwatched⟩ :=
      maybeSend_delivered (r := r.enqueued packet) hidle hcall
    exact ⟨⟨sent, [packet], hsent, hqueued, hperm⟩, haborted, hwatched⟩
  · rw [if_neg hempty] at hcall
    cases hcall
    have hne : r.queue.packets.c ≠ [] := fun hnil => hempty (ShapedPacketQueue.empty_iff.mpr hnil)
    refine ⟨⟨[], [packet], by simp [enqueued], rfl, by simp [enqueued]⟩, rfl, ?_, h.single⟩
    simp [enqueued, h.waiting.mpr hne]

theorem Watched.waitDone (h : r.Watched) {now : Int} (hcall : waitDone now r = .ok () r') :
    r.Delivered r' := by
  have hidle : r.timer.waits - 1 = 0 := by
    have := h.single
    omega
  have hcall : maybeSend now { r with timer := { r.timer with waits := r.timer.waits - 1 } } =
      .ok () r' := hcall
  obtain ⟨sent, hsent, hqueued, haborted, hperm, hwatched⟩ := maybeSend_delivered hidle hcall
  exact ⟨⟨sent, [], hsent, by simp [hqueued], by simpa using hperm⟩, haborted, hwatched⟩

theorem Watched.queuePackets (h : r.Watched) {clock : Nat → Int} {packets : List Bytes}
    (hcall : Node.queuePackets clock packets r = .ok () r') : r.Delivered r' := by
  unfold Node.queuePackets at hcall
  generalize packets.zipIdx = xs at hcall
  induction xs generalizing r with
  | nil =>
      obtain ⟨-, rfl⟩ := Method.pure_ok_iff.mp hcall
      exact h.delivered
  | cons x xs ih =>
      obtain ⟨_, r₁, hfirst, hrest⟩ := Method.bind_ok_iff.mp hcall
      have hdelivered := h.queuePacket hfirst
      exact hdelivered.trans (ih hdelivered.watched hrest)

theorem watched_make (kbps : Nat) : (make kbps).Watched where
  waiting := by simp [make, ShapedPacketQueue.make]
  single := by simp [make]

end AsioReceiver

/-! ## Nodes -/

namespace Node

variable {W : Wirehair} {S : Siamese} {ε : Type} [LinearOrder ε]

theorem isSubscribe_of_words {data : Bytes} (hcontrol : typeOf data = some .control)
    (haction : word data 2 = actionSubscribe)
    (hsize : sizeOfHeader ControlPacketHeader ≤ data.length) :
    IsSubscribe data (PacketLayout.view data) where
  header := Packet.header_ok_iff.mpr ⟨hsize, rfl⟩
  control := PacketType.code_of_ofCode hcontrol
  action := haction

/-- What a step does to the receiver of a peer: nothing, it goes on delivering, or it is
replaced because the peer subscribes. -/
theorem receiver_of_step {n n' : Node W S ε} {e : Event ε} (h : Step n e n') (c : UInt32)
    (peer : ε) :
    n'.receiver c peer = n.receiver c peer ∨
      (∃ r r', n.receiver c peer = some r ∧ n'.receiver c peer = some r' ∧
        (r.Watched → r.Delivered r')) ∨
      ∃ around data hd, e = .datagram around data peer ∧ IsSubscribe data hd ∧
        hd.channelId = c ∧ n' = subscribe c peer hd.kbps n := by
  have hqueue : ∀ {around : Surroundings ε} {channelId packets} {n₁ : Node W S ε},
      queueToAll around channelId packets n₁ = .ok () n' →
      n₁.receiver c peer = n.receiver c peer →
      n'.receiver c peer = n.receiver c peer ∨
        (∃ r r', n.receiver c peer = some r ∧ n'.receiver c peer = some r' ∧
          (r.Watched → r.Delivered r')) := by
    intro around channelId packets n₁ hcall hn₁
    rcases receiver_of_queueToAll hcall c peer with ⟨_, hsame⟩ | ⟨r, r', _, hr, hr', hq⟩
    · exact Or.inl (hsame.trans hn₁)
    · exact Or.inr ⟨r, r', hn₁ ▸ hr, hr', fun hwatched => hwatched.queuePackets hq⟩
  have hresult := h.result
  cases e with
  | datagram around data p =>
      rcases handlePacket_ok hresult with ⟨ht, hcall⟩ | ⟨ht, hcall⟩ | ⟨ht, hcall⟩ | ⟨ht, hcall⟩
      · rcases handleControl_cases hcall with ⟨-, rfl⟩ | ⟨haction, hsize, rfl⟩
        · exact Or.inl rfl
        · by_cases hpeer : c = word data 3 ∧ p = peer
          · obtain ⟨rfl, rfl⟩ := hpeer
            exact Or.inr (Or.inr ⟨around, data, _, rfl, isSubscribe_of_words ht haction hsize,
              rfl, rfl⟩)
          · left
            unfold subscribe
            rw [receiver_withReceiver, if_neg hpeer]
      · rcases handleBlock_ok hcall with ⟨-, rfl, -⟩ | ⟨_, _, _, _, _, _, hhandled⟩
        · exact Or.inl rfl
        · exact (hqueue hhandled.queued rfl).imp_right Or.inl
      · rcases handleStream_ok hcall with ⟨-, rfl, -⟩ | ⟨_, _, _, _, _, _, _, _, hhandled⟩
        · exact Or.inl rfl
        · rcases hhandled.queued with ⟨-, rfl⟩ | hqueued
          · exact Or.inl rfl
          · exact (hqueue hqueued rfl).imp_right Or.inl
      · obtain ⟨_, _, _, _, _, _, rfl⟩ := handleStreamAck_ok hcall
        exact Or.inl rfl
  | timerExpires channelId p now =>
      rcases onReceiver_ok hresult with ⟨-, rfl⟩ | ⟨r, r', hr, hcall, rfl⟩
      · exact Or.inl rfl
      · by_cases hpeer : c = channelId ∧ p = peer
        · obtain ⟨rfl, rfl⟩ := hpeer
          refine Or.inr (Or.inl ⟨r, r', hr, ?_, fun hwatched => hwatched.waitDone hcall⟩)
          rw [receiver_withReceiver, if_pos ⟨rfl, rfl⟩]
        · left
          rw [receiver_withReceiver, if_neg hpeer]
  | waitAborted channelId p =>
      obtain ⟨r, hr, -⟩ := h.enabled
      rcases onReceiver_ok hresult with ⟨hnone, -⟩ | ⟨r', _, -, hcall, -⟩
      · rw [hr] at hnone
        cases hnone
      · cases hcall

/-! ### Subscriptions -/

/-- A step, in which the peer does not subscribe to the channel while packets wait for it. -/
structure GentleStep (c : UInt32) (peer : ε) (n : Node W S ε) (e : Event ε) (n' : Node W S ε) :
    Prop where
  step : Step n e n'
  gentle : ∀ around data hd r, e = .datagram around data peer → IsSubscribe data hd →
    hd.channelId = c → n.receiver c peer = some r → r.queue.packets.c = []

/-- The receiver of a peer, if it has one, is watched. -/
def WatchedAt (c : UInt32) (peer : ε) (n : Node W S ε) : Prop :=
  ∀ r, n.receiver c peer = some r → r.Watched

theorem receiver_subscribe_self (c : UInt32) (peer : ε) (kbps : UInt32) (n : Node W S ε) :
    (subscribe c peer kbps n).receiver c peer = some (match n.receiver c peer with
      | none => AsioReceiver.make kbps.toNat
      | some r => r.moveAssign (AsioReceiver.make kbps.toNat)) := by
  unfold subscribe
  rw [receiver_withReceiver, if_pos ⟨rfl, rfl⟩]
  rfl

theorem watched_moveAssign (r : AsioReceiver) (kbps : Nat) :
    (r.moveAssign (AsioReceiver.make kbps)).Watched :=
  ⟨(AsioReceiver.watched_make kbps).waiting, (AsioReceiver.watched_make kbps).single⟩

/-- Moving a new receiver over one that holds nothing, and so waits for nothing, loses nothing. -/
theorem delivered_moveAssign {r : AsioReceiver} (h : r.Watched) (hempty : r.queue.packets.c = [])
    (kbps : Nat) : r.Delivered (r.moveAssign (AsioReceiver.make kbps)) where
  accounted := ⟨[], [], by simp [AsioReceiver.moveAssign], by simp [AsioReceiver.moveAssign],
    by simp [AsioReceiver.moveAssign, AsioReceiver.make, ShapedPacketQueue.make, hempty]⟩
  unaborted := by simp [AsioReceiver.moveAssign, AsioReceiver.make, h.idle hempty]
  watched := watched_moveAssign r kbps

theorem watchedAt_run {n : Node W S ε} {es : List (Event ε)} (hrun : Run Step {} es n)
    (c : UInt32) (peer : ε) : n.WatchedAt c peer := by
  refine Run.invariant (I := WatchedAt c peer) (fun n e n' hwatched hstep => ?_) hrun ?_
  · intro r hr
    rcases receiver_of_step hstep c peer with hsame | ⟨r₀, r', hr₀, hr', hgoes⟩ |
      ⟨_, _, hd, _, _, _, rfl⟩
    · exact hwatched r (hsame ▸ hr)
    · obtain rfl : r' = r := by simpa [hr'] using hr
      exact (hgoes (hwatched r₀ hr₀)).watched
    · rw [receiver_subscribe_self] at hr
      cases hold : n.receiver c peer with
      | none =>
          obtain rfl : AsioReceiver.make hd.kbps.toNat = r := by simpa [hold] using hr
          exact AsioReceiver.watched_make _
      | some r₀ =>
          obtain rfl : r₀.moveAssign (AsioReceiver.make hd.kbps.toNat) = r := by
            simpa [hold] using hr
          exact watched_moveAssign r₀ _
  · intro r hr
    cases hr

/-- Gentle steps deliver. -/
theorem GentleStep.delivered {c : UInt32} {peer : ε} {n n' : Node W S ε} {e : Event ε}
    (h : GentleStep c peer n e n') {r : AsioReceiver} (hr : n.receiver c peer = some r)
    (hwatched : r.Watched) : ∃ r', n'.receiver c peer = some r' ∧ r.Delivered r' := by
  rcases receiver_of_step h.step c peer with hsame | ⟨r₀, r', hr₀, hr', hgoes⟩ |
    ⟨around, data, hd, he, hsubscribe, hc, rfl⟩
  · exact ⟨r, hsame.trans hr, hwatched.delivered⟩
  · obtain rfl : r₀ = r := by simpa [hr₀] using hr
    exact ⟨r', hr', hgoes hwatched⟩
  · have hempty := h.gentle around data hd r he hsubscribe hc hr
    refine ⟨_, receiver_subscribe_self c peer hd.kbps n, ?_⟩
    rw [hr]
    exact delivered_moveAssign hwatched hempty _

theorem delivered_run {c : UInt32} {peer : ε} {n n' : Node W S ε} {es : List (Event ε)}
    (hrun : Run (GentleStep c peer) n es n') {r r₀ : AsioReceiver}
    (hr : n.receiver c peer = some r) (h : r₀.Delivered r) :
    ∃ r', n'.receiver c peer = some r' ∧ r₀.Delivered r' := by
  refine Run.invariant (I := fun n => ∃ r', n.receiver c peer = some r' ∧ r₀.Delivered r')
    (fun n e n' hbefore hstep => ?_) hrun ⟨r, hr, h⟩
  obtain ⟨r₁, hr₁, hdelivered⟩ := hbefore
  obtain ⟨r₂, hr₂, hmore⟩ := hstep.delivered hr₁ hdelivered.watched
  exact ⟨r₂, hr₂, hdelivered.trans hmore⟩

/-- Whatever happens from `n` on, the packets that the peer's receiver `r` held, and those
queued since, are delivered, and no wait for its timer is cancelled. -/
def KeepsDelivering (c : UInt32) (peer : ε) (r : AsioReceiver) (n : Node W S ε) : Prop :=
  ∀ es n', Run (GentleStep c peer) n es n' → ∃ r', n'.receiver c peer = some r' ∧ r.Delivered r'

/-- Right after a subscription nothing is held any more, and nothing was sent. -/
theorem empty_of_keepsDelivering {n : Node W S ε} {c : UInt32} {peer : ε} {r : AsioReceiver}
    (hr : n.receiver c peer = some r) {kbps : UInt32}
    (h : KeepsDelivering c peer r (subscribe c peer kbps n)) : r.queue.packets.c = [] := by
  have hreplaced := receiver_subscribe_self c peer kbps n
  rw [hr] at hreplaced
  obtain ⟨r', hr', hdelivered⟩ := h [] _ (.nil _)
  obtain rfl : r.moveAssign (AsioReceiver.make kbps.toNat) = r' := by
    simpa [hreplaced] using hr'
  obtain ⟨sent, queued, hsent, -, hperm⟩ := hdelivered.accounted
  have hnone : sent = [] := by simpa [AsioReceiver.moveAssign] using hsent
  rw [hnone] at hperm
  have hgone := List.append_eq_nil_iff.mp (List.nil_perm.mp hperm)
  exact hgone.1

/-- The wait that was outstanding ends with an error, which its handler throws. -/
theorem wait_aborted_of_subscribe {n : Node W S ε} {c : UInt32} {peer : ε} {r : AsioReceiver}
    (hr : n.receiver c peer = some r) (hwaits : 0 < r.timer.waits) (kbps : UInt32) :
    Event.Enabled (subscribe c peer kbps n) (.waitAborted c peer) ∧
      Method.thrown ((Event.waitAborted c peer).call (subscribe c peer kbps n)) =
        some (.systemError "operation_aborted") := by
  have hreplaced := receiver_subscribe_self c peer kbps n
  rw [hr] at hreplaced
  refine ⟨⟨_, hreplaced, Nat.add_pos_right _ hwaits⟩, ?_⟩
  show Method.thrown (onReceiver c peer AsioReceiver.waitAborted _) = _
  unfold onReceiver
  rw [hreplaced]
  rfl

/-! ### A subscription in front of a timer -/

/-- The node once both symbols of a block, and the first one once more, were relayed to peer 7,
which has more queued than the shaper admits at once. -/
def waitingNode : Node replicating echoing Nat :=
  Published.nodeAfter (Published.nodeAfter (Published.nodeAfter Published.subscribedNode
    (Published.twoSymbolPacket 0) 9) (Published.twoSymbolPacket 1) 9)
    (Published.twoSymbolPacket 0) 9

theorem waitingNode_reached : ∃ es, Run Step {} es waitingNode :=
  ⟨_, (((((Run.single (Published.step_nodeAfter (by decide +kernel))).snoc
    (Published.step_nodeAfter (by decide +kernel))).snoc
    (Published.step_nodeAfter (by decide +kernel))).snoc
    (Published.step_nodeAfter (by decide +kernel))).snoc
    (Published.step_nodeAfter (by decide +kernel)))⟩

theorem waitingNode_waits : ∃ r, waitingNode.receiver 1 7 = some r ∧
    r.queue.packets.c ≠ [] ∧ 0 < r.timer.waits := by
  have hany : (waitingNode.receiver 1 7).any
      (fun r => r.queue.packets.c != [] && decide (0 < r.timer.waits)) = true := by decide +kernel
  obtain ⟨r, hr, hwaiting⟩ := (Option.any_eq_true _ _).mp hany
  rw [Bool.and_eq_true, bne_iff_ne, decide_eq_true_eq] at hwaiting
  exact ⟨r, hr, hwaiting⟩

/-- **When a repeated subscription is safe.** Exactly if the receiver that it replaces holds
no packets. -/
theorem resubscribe_safe_iff {n : Node W S ε} {es : List (Event ε)} (hrun : Run Step {} es n)
    {data : Bytes} {hd : ControlPacketHeader} (hsubscribe : IsSubscribe data hd) {peer : ε}
    {r : AsioReceiver} (hr : n.receiver hd.channelId peer = some r) (around : Surroundings ε) :
    ∃ n', handlePacket around data peer n = .ok () n' ∧
      (KeepsDelivering hd.channelId peer r n' ↔ r.queue.empty = true) := by
  refine ⟨_, handlePacket_subscribe hsubscribe around peer n, ?_⟩
  rw [ShapedPacketQueue.empty_iff]
  constructor
  · exact empty_of_keepsDelivering hr
  · intro hempty es' n' hrun'
    have hwatched := watchedAt_run hrun hd.channelId peer r hr
    have hreplaced := receiver_subscribe_self hd.channelId peer hd.kbps n
    rw [hr] at hreplaced
    exact delivered_run hrun' hreplaced (delivered_moveAssign hwatched hempty _)

/-- A peer that has been queued nothing subscribes again, and one that has packets queued. -/
theorem resubscribe_safe_iff_idle_and_waiting :
    (∃ n', handlePacket Published.someSurroundings (subscribePacket 2000) 7
        (subscribe 1 7 2000 {} : Node replicating echoing Nat) = .ok () n' ∧
      KeepsDelivering 1 7 (AsioReceiver.make 2000) n') ∧
    ∃ r n', waitingNode.receiver 1 7 = some r ∧
      handlePacket Published.someSurroundings (subscribePacket 2000) 7 waitingNode = .ok () n' ∧
      ¬KeepsDelivering 1 7 r n' := by
  have hstep : Step ({} : Node replicating echoing Nat)
      (.datagram Published.someSurroundings (subscribePacket 2000) 7) (subscribe 1 7 2000 {}) :=
    ⟨trivial, handlePacket_subscribe (isSubscribe_subscribePacket 2000) _ 7 {}⟩
  have hidle : (subscribe 1 7 2000 {} : Node replicating echoing Nat).receiver 1 7 =
      some (AsioReceiver.make 2000) := rfl
  constructor
  · obtain ⟨n', hcall, hsafe⟩ := resubscribe_safe_iff (.single hstep)
      (isSubscribe_subscribePacket 2000) hidle Published.someSurroundings
    exact ⟨n', hcall, hsafe.mpr rfl⟩
  · obtain ⟨es, hrun⟩ := waitingNode_reached
    obtain ⟨r, hr, hheld, -⟩ := waitingNode_waits
    obtain ⟨n', hcall, hsafe⟩ := resubscribe_safe_iff hrun (isSubscribe_subscribePacket 2000) hr
      Published.someSurroundings
    exact ⟨r, n', hr, hcall, fun hkeeps => hheld (ShapedPacketQueue.empty_iff.mp (hsafe.mp hkeeps))⟩

/-- No repeated subscription loses a packet or cancels a wait. -/
def ResubscribesSafely (W : Wirehair) (S : Siamese) (ε : Type) [LinearOrder ε] : Prop :=
  ∀ (n n' : Node W S ε) (es : List (Event ε)) (around : Surroundings ε) (data : Bytes)
    (hd : ControlPacketHeader) (peer : ε) (r : AsioReceiver), Run Step {} es n →
    IsSubscribe data hd → n.receiver hd.channelId peer = some r →
    handlePacket around data peer n = .ok () n' → KeepsDelivering hd.channelId peer r n'

/-- **A repeated subscription loses packets.** Peer 7 subscribes again while a packet waits for
its timer: the packet is lost, and the handler of the cancelled wait throws. -/
theorem resubscription_loses_packets : ¬ResubscribesSafely replicating echoing Nat ∧
    ∃ n', handlePacket Published.someSurroundings (subscribePacket 2000) 7 waitingNode = .ok () n' ∧
      Event.Enabled n' (.waitAborted 1 7) ∧
      Method.thrown ((Event.waitAborted 1 7).call n') = some (.systemError "operation_aborted") := by
  obtain ⟨es, hrun⟩ := waitingNode_reached
  obtain ⟨r, hr, hheld, hwaits⟩ := waitingNode_waits
  have hcall : handlePacket Published.someSurroundings (subscribePacket 2000) 7 waitingNode =
      .ok () (subscribe 1 7 2000 waitingNode) :=
    handlePacket_subscribe (isSubscribe_subscribePacket 2000) Published.someSurroundings 7 _
  refine ⟨fun h => ?_, _, hcall, wait_aborted_of_subscribe hr hwaits 2000⟩
  exact hheld (empty_of_keepsDelivering hr
    (h _ _ es _ _ _ 7 r hrun (isSubscribe_subscribePacket 2000) hr hcall))

end Node

end FecRelay
