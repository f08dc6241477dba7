import FecRelay.Theorems.BlockRelay
import FecRelay.Theorems.Isolation

/-!
# What a channel's subscribers are sent is decided by its traffic

Every packet that is queued to a channel is queued to all of its subscribers. Which packets
these are is decided by the block packets, the stream packets and the acks of the channel
alone: it does not matter who else subscribes, at which rates, how often somebody subscribes
anew or when the packets are sent.
-/

namespace FecRelay.Node

open FecRelay.Base

variable {W : Wirehair} {S : Siamese} {ε : Type} [LinearOrder ε]

/-! ## Subscribers of one run -/

/-- The packets that a step queues to a channel go to every subscriber. -/
theorem step_queues {n n' : Node W S ε} {e : Event ε} (h : Step n e n') (c : UInt32) :
    ∃ packets, ∀ peer, n.Subscribed c peer →
      n'.queuedTo c peer = n.queuedTo c peer ++ packets := by
  have hnothing : ∀ {n'' : Node W S ε}, (∀ peer, n''.queuedTo c peer = n.queuedTo c peer) →
      ∃ packets, ∀ peer, n.Subscribed c peer →
        n''.queuedTo c peer = n.queuedTo c peer ++ packets := by
    intro n'' hsame
    refine ⟨[], fun peer _ => ?_⟩
    rw [hsame, List.append_nil]
  have hqueues : ∀ {m : Node W S ε} {c' : UInt32} {packets : List Bytes},
      Queues c' packets m n' → (∀ peer, m.receiver c peer = n.receiver c peer) →
      ∃ packets, ∀ peer, n.Subscribed c peer →
        n'.queuedTo c peer = n.queuedTo c peer ++ packets := by
    intro m c' packets hqueues hreceiver
    by_cases hc : c = c'
    · subst hc
      refine ⟨packets, fun peer hsub => ?_⟩
      unfold Subscribed queuedTo at *
      rw [← hreceiver] at hsub ⊢
      exact hqueues.queued peer hsub
    · refine hnothing fun peer => ?_
      rw [hqueues.unqueued c peer (Or.inl hc)]
      unfold queuedTo
      rw [hreceiver]
  rcases step_cases h with hquiet | ⟨around, data, peer, -, hcases⟩
  · exact hnothing (hquiet.queued c)
  rcases hcases with ⟨-, hd, payload, block, decoded, block', generated, hhandled⟩ |
    ⟨-, hd, payload, d₁, d₂, s₁, symbols, e₁, acks, hhandled⟩ | ⟨-, hack⟩
  · exact hqueues hhandled.effect.2.2.2 fun _ => rfl
  · rcases hhandled.queued with ⟨-, rfl⟩ | hqueue
    · exact hnothing fun _ => rfl
    · exact hqueues (queues_of_queueToAll hqueue) fun _ => rfl
  · obtain ⟨hd, payload, e₁, -, -, -, rfl⟩ := handleStreamAck_ok hack
    exact hnothing fun _ => rfl

/-- Whoever subscribed before a run is queued the same packets in it. -/
theorem run_queues {n n' : Node W S ε} {xs : List (Event ε × Bool)} (h : Run TracedStep n xs n')
    (c : UInt32) : ∃ packets, ∀ peer, n.Subscribed c peer →
      n'.Subscribed c peer ∧ n'.queuedTo c peer = n.queuedTo c peer ++ packets := by
  induction h with
  | nil => exact ⟨[], fun peer hsub => ⟨hsub, (List.append_nil _).symm⟩⟩
  | snoc _ hstep ih =>
      obtain ⟨before, hbefore⟩ := ih
      obtain ⟨more, hmore⟩ := step_queues hstep.step c
      refine ⟨before ++ more, fun peer hsub => ?_⟩
      obtain ⟨hstays, hqueued⟩ := hbefore peer hsub
      refine ⟨(step_grows hstep.step).subscribed c peer hstays, ?_⟩
      rw [hmore peer hstays, hqueued, List.append_assoc]

/-! ## Two runs with the same traffic -/

/-- The same packets were queued to each of some peers. -/
def SameQueues (P : ε → Prop) (m m' : OrderedMap ε AsioReceiver) : Prop :=
  ∀ peer, P peer → (m.find? peer).map AsioReceiver.queued =
    (m'.find? peer).map AsioReceiver.queued

theorem sameQueues_equivalence (P : ε → Prop) : Equivalence (SameQueues P) where
  refl _ _ _ := rfl
  symm h peer hpeer := (h peer hpeer).symm
  trans h h' peer hpeer := (h peer hpeer).trans (h' peer hpeer)

theorem SameRecords.sameQueues {m m' : OrderedMap ε AsioReceiver} (h : SameRecords m m')
    (P : ε → Prop) : SameQueues P m m' := by
  intro peer _
  have hqueued := congrArg (Option.map Prod.snd) (h peer)
  rw [Option.map_map, Option.map_map] at hqueued
  exact hqueued

theorem likeness_queues (P : ε → Prop) (around around' : Surroundings ε) :
    Likeness (SameQueues P) around around' where
  queue packets := by
    intro m m' t t' _ _ hsame h h'
    refine ⟨rfl, fun peer hpeer => ?_⟩
    have hqueued := hsame peer hpeer
    rcases OrderedMap.visited_of_forValues h peer with ⟨hm, ht⟩ | ⟨r, u, hm, hcall, ht⟩ <;>
      rcases OrderedMap.visited_of_forValues h' peer with ⟨hm', ht'⟩ | ⟨r', u', hm', hcall', ht'⟩
    · rw [ht, ht']
    · simp [hm, hm'] at hqueued
    · simp [hm, hm'] at hqueued
    · have hsame' : r.queued = r'.queued := by simpa [hm, hm'] using hqueued
      simp [ht, ht', queuePackets_ok hcall, queuePackets_ok hcall', hsame']
  subscribe peer kbps m m' hsame p hp := by
    have hqueued := hsame p hp
    unfold resubscribed
    rw [OrderedMap.find?_insertOrAssign, OrderedMap.find?_insertOrAssign]
    by_cases hpeer : peer = p
    · rw [if_pos hpeer, if_pos hpeer]
      cases hm : m.find? peer <;> cases hm' : m'.find? peer <;>
        simp_all [AsioReceiver.moveAssign, AsioReceiver.make]
    · rw [if_neg hpeer, if_neg hpeer]
      exact hqueued

/-- A block packet, a stream packet or an ack of the channel, the peer it came from and
whether it was dropped. -/
def trafficOn (channelId : UInt32) (x : Event ε × Bool) : Option (Bytes × ε × Bool) :=
  match x.1 with
  | .datagram _ data _ => if typeOf data = some .control then none else packetOn channelId x
  | _ => none

/-- A step of a node that some peers have subscribed to. -/
def ServingStep (P : ε → Prop) (c : UInt32) (n : Node W S ε) (x : Event ε × Bool)
    (n' : Node W S ε) : Prop :=
  TracedStep n x n' ∧ ∀ peer, P peer → n.Subscribed c peer

section runs

variable {P : ε → Prop} {c : UInt32}

theorem SameOn.sameQueues {n n' : Node W S ε} (h : SameOn SameRecords c n n') :
    SameOn (SameQueues P) c n n' :=
  ⟨h.subscriptions.sameQueues P, h.blocks, h.streams, h.acks⟩

/-- A request changes nothing that was queued to a peer that had subscribed. -/
theorem sameQueues_of_control {data : Bytes} {peer : ε} {n n' : Node W S ε}
    (hsub : ∀ peer, P peer → n.Subscribed c peer) (h : handleControl data peer n = .ok () n') :
    SameOn (SameQueues P) c n n' := by
  have hrefl := (sameOn_equivalence (W := W) (S := S) (c := c) (sameQueues_equivalence P)).refl n
  rcases handleControl_ok h with rfl | ⟨c', kbps, rfl⟩
  · exact hrefl
  refine ⟨fun p hp => ?_, hrefl.blocks, hrefl.streams, hrefl.acks⟩
  show _ = ((subscribe c' peer kbps n).receiver c p).map AsioReceiver.queued
  have hthere := hsub p hp
  unfold Subscribed at hthere
  obtain ⟨r, hr⟩ := Option.isSome_iff_exists.mp hthere
  have hfind : (n.subscriptions c).find? p = some r := hr
  unfold subscribe
  rw [receiver_withReceiver, hfind]
  split
  · next hsame =>
      obtain ⟨rfl, rfl⟩ := hsame
      rw [hfind]
      rfl
  · rw [hr]

theorem unwinding_traffic (P : ε → Prop) (c : UInt32) :
    Unwinding (ServingStep (W := W) (S := S) P c) (SameOn (SameQueues P) c) (trafficOn c) where
  equivalence := sameOn_equivalence (sameQueues_equivalence P)
  silent n x n' hstep hunseen := by
    obtain ⟨hstep, hsub⟩ := hstep
    obtain ⟨e, lost⟩ := x
    have hresult := hstep.step.result
    cases e with
    | datagram around data peer =>
        by_cases htype : typeOf data = some .control
        · rcases handlePacket_ok hresult with ⟨-, hcall⟩ | ⟨hother, -⟩ | ⟨hother, -⟩ | ⟨hother, -⟩
          · exact sameQueues_of_control hsub hcall
          all_goals simp [htype] at hother
        · have hc : channelOf data ≠ some c := by simpa [trafficOn, packetOn, htype] using hunseen
          exact (same_of_handlePacket hc hresult).of_eq (sameQueues_equivalence P)
    | timerExpires c' peer now =>
        exact (records_of_onReceiver (fun r => ⟨AsioReceiver.waitDone_kbps now r,
          AsioReceiver.waitDone_queued now r⟩) hresult).sameQueues
    | waitAborted c' peer =>
        exact (records_of_onReceiver (fun _ => ⟨rfl, rfl⟩) hresult).sameQueues
  consistent n x t n' x' t' o hstep hstep' hseen hseen' hsame := by
    obtain ⟨e, lost⟩ := x
    obtain ⟨e', lost'⟩ := x'
    cases e with
    | timerExpires => simp [trafficOn] at hseen
    | waitAborted => simp [trafficOn] at hseen
    | datagram around data peer =>
      cases e' with
      | timerExpires => simp [trafficOn] at hseen'
      | waitAborted => simp [trafficOn] at hseen'
      | datagram around' data' peer' =>
        obtain ⟨-, hc, ho⟩ : ¬typeOf data = some .control ∧ channelOf data = some c ∧
            (data, peer, lost) = o := by
          simpa [trafficOn, packetOn] using hseen
        obtain ⟨-, -, ho'⟩ : ¬typeOf data' = some .control ∧ channelOf data' = some c ∧
            (data', peer', lost') = o := by
          simpa [trafficOn, packetOn] using hseen'
        rw [← ho'] at ho
        cases ho
        have hdropped := hstep.1.outcome.symm.trans hstep'.1.outcome
        exact related_handlePacket (likeness_queues P around around') hc peer hsame
          (loss_iff_of_dropped hdropped) hstep.1.step.result hstep'.1.step.result

/-- Who has subscribed is served in all of a run. -/
theorem serving_of_run {n n' : Node W S ε} {xs : List (Event ε × Bool)}
    (hrun : Run TracedStep n xs n') (hsub : ∀ peer, P peer → n.Subscribed c peer) :
    Run (ServingStep P c) n xs n' := by
  have hserved : (∀ peer, P peer → n'.Subscribed c peer) ∧
      Run (ServingStep P c) (id n) (xs.map id) (id n') :=
    hrun.simulate id id
      (I := fun n => ∀ peer, P peer → n.Subscribed c peer) (C := fun _ => True)
      (fun s e t hs _ hstep => ⟨fun peer hpeer =>
        (step_grows hstep.step).subscribed c peer (hs peer hpeer), hstep, hs⟩)
      (fun _ _ => trivial) hsub
  simpa using hserved.2

end runs

/-- **The traffic of a channel decides what its subscribers are sent.** If a channel saw the
same block packets, stream packets and acks with the same losses in two runs, then there is
one sequence of packets that every peer that had subscribed was queued in both of them, and
the channel has the same blocks and stream and was sent the same acks. -/
theorem fanout_decided_by_traffic {m n₁ n₂ : Node W S ε} {xs₁ xs₂ : List (Event ε × Bool)}
    (hrun₁ : Run TracedStep m xs₁ n₁) (hrun₂ : Run TracedStep m xs₂ n₂) (c : UInt32)
    (htraffic : xs₁.filterMap (trafficOn c) = xs₂.filterMap (trafficOn c)) :
    (∃ packets, ∀ peer, m.Subscribed c peer →
      n₁.queuedTo c peer = m.queuedTo c peer ++ packets ∧
        n₂.queuedTo c peer = m.queuedTo c peer ++ packets) ∧
      (∀ blockId, n₁.blocks (c, blockId) = n₂.blocks (c, blockId)) ∧
      n₁.streams c = n₂.streams c ∧ n₁.acksFor c = n₂.acksFor c := by
  have hsame := (unwinding_traffic (m.Subscribed c) c).run
    (serving_of_run hrun₁ fun _ hsub => hsub) (serving_of_run hrun₂ fun _ hsub => hsub)
    ((sameOn_equivalence (sameQueues_equivalence _)).refl m) htraffic
  refine ⟨?_, hsame.blocks, hsame.streams, hsame.acks⟩
  obtain ⟨packets, hqueues⟩ := run_queues hrun₁ c
  refine ⟨packets, fun peer hsub => ⟨(hqueues peer hsub).2, ?_⟩⟩
  rw [← (hqueues peer hsub).2]
  have hqueued := hsame.subscriptions peer hsub
  exact (congrArg (Option.getD · []) hqueued).symm

/-! ## Two runs

Peer 7 has subscribed. A packet of a block is lost and arrives again, and in one of the runs
the peer subscribes anew in between. -/

/-- The node that peer 7 has subscribed to. -/
def startNode : Node replicating echoing Nat := subscribe 1 7 2000 {}

/-- Symbol 0 of the block of two symbols, from peer 9. -/
def symbolArrives : Event Nat :=
  .datagram Published.someSurroundings (Published.twoSymbolPacket 0) 9

/-- The node once symbol 0 arrived. -/
def afterSymbol (n : Node replicating echoing Nat) : Node replicating echoing Nat :=
  Published.nodeAfter n (Published.twoSymbolPacket 0) 9

/-- The peer is queued the packet in either run. -/
theorem fanout_decided_by_traffic_resubscribed :
    (afterSymbol (afterSymbol startNode)).queuedTo 1 7 =
      (afterSymbol (subscribe 1 7 2000 (afterSymbol startNode))).queuedTo 1 7 := by
  have hlost : TracedStep startNode (symbolArrives, true) (afterSymbol startNode) :=
    ⟨Published.step_nodeAfter (by decide +kernel), by decide +kernel⟩
  have hkept : TracedStep (afterSymbol startNode) (symbolArrives, false)
      (afterSymbol (afterSymbol startNode)) :=
    ⟨Published.step_nodeAfter (by decide +kernel), by decide +kernel⟩
  have hkept' : TracedStep (subscribe 1 7 2000 (afterSymbol startNode)) (symbolArrives, false)
      (afterSymbol (subscribe 1 7 2000 (afterSymbol startNode))) :=
    ⟨Published.step_nodeAfter (by decide +kernel), by decide +kernel⟩
  have hsub : startNode.Subscribed 1 7 := by
    unfold Subscribed
    decide +kernel
  obtain ⟨⟨packets, hqueues⟩, -⟩ := fanout_decided_by_traffic ((Run.single hlost).snoc hkept)
    (((Run.single hlost).snoc (tracedStep_subscribes 1 _)).snoc hkept') 1 (by decide +kernel)
  rw [(hqueues 7 hsub).1, (hqueues 7 hsub).2]

end FecRelay.Node
