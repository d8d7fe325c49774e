import MiniUdp.System.AnyNetwork
import MiniUdp.System.LifeCycle
import MiniUdp.System.Quiet
import MiniUdp.Communicator.Oblivious

/-!
# Every call returns

On an honest connection nothing panics and nothing hangs, whatever the network
does: as long as the messages fit a packet and a reliable packet may be sent at
least once, every call of `send` returns without an error, and every datagram
of the other side is read (`calls_return`).
-/

namespace MiniUdp

open While InnerUdpCommunicator

variable {S R Buf D : Type}

/-! ## One call of send -/

section Send

variable [ByteRepr S] {link : Link S Buf D} (env : SendEnv S)
  (socket : UdpCommunicatorSocket Buf)

/-- A packet that fits and may still be sent goes through. -/
theorem resendIfNeeded_returns (hlink : link.Faithful) (id : UInt16) {p : PendingPacket S}
    (st : SendState Buf D) (hlen : Packet.dataLen p.packet.messages ≤ MAX_PACKET_DATA_LEN)
    (hretries : 0 < p.remainingRetries) :
    ∃ keep p' st', resendIfNeeded link env socket id p st = .ok (keep, p', st') := by
  unfold resendIfNeeded
  by_cases hdue : resendDue env socket p = true
  · obtain ⟨buf', d, hw, -⟩ := hlink p.packet hlen st.buf
    have hn : decrementRetries env.overflowChecks p.remainingRetries =
        .ok (p.remainingRetries - 1) := if_neg (by omega)
    rw [if_pos hdue]
    simp only [hw, hn]
    exact ⟨_, _, _, rfl⟩
  · rw [if_neg hdue]
    exact ⟨_, _, _, rfl⟩

theorem retain_returns (hlink : link.Faithful) {window : RingBuffer (PendingPacket S) 32}
    (h : ∀ id p, window.get id = some p →
      Packet.dataLen p.packet.messages ≤ MAX_PACKET_DATA_LEN ∧ 0 < p.remainingRetries)
    (st : SendState Buf D) :
    ∃ window' st', window.retain (resendIfNeeded link env socket) st = .ok (window', st') := by
  refine RingBuffer.retain_total (P := fun _ _ => True) trivial (fun _ _ _ _ _ => trivial) ?_
  intro done id p st hp _
  obtain ⟨keep, p', st', hr⟩ := resendIfNeeded_returns env socket hlink id st
    (h id p hp).1 (h id p hp).2
  exact ⟨keep, p', st', hr, trivial⟩

theorem sendUnreliable_returns (hlink : link.Faithful) {packets : List (Packet S)}
    (h : ∀ p ∈ packets, Packet.dataLen p.messages ≤ MAX_PACKET_DATA_LEN) (place : Nat)
    (st : SendState Buf D) :
    ∃ st', sendUnreliable link env packets place st = .ok (st', none) := by
  induction packets generalizing place st with
  | nil => exact ⟨st, rfl⟩
  | cons packet packets ih =>
    obtain ⟨buf', d, hw, -⟩ := hlink packet (h packet List.mem_cons_self) st.buf
    unfold sendUnreliable
    simp only [hw]
    exact ih (fun p hp => h p (List.mem_cons_of_mem packet hp)) _ _

variable {env socket}

omit [ByteRepr S] in
/-- What stays in a window may be sent again. -/
theorem retries_retain {window window' : RingBuffer (PendingPacket S) 32}
    {st st' : SendState Buf D} (h : ∀ id p, window.get id = some p → 0 < p.remainingRetries)
    (hr : window.retain (resendIfNeeded link env socket) st = .ok (window', st')) :
    ∀ id p, window'.get id = some p → 0 < p.remainingRetries := by
  obtain ⟨-, hret⟩ := RingBuffer.retain_invariant (P := fun _ _ => True)
    (Q := fun _ (_ : PendingPacket S) left => ∀ p', left = some p' → 0 < p'.remainingRetries)
    trivial (fun _ _ _ _ _ => trivial) (fun done id p s keep p' s' hp _ hf => by
      refine ⟨trivial, fun q hq => ?_⟩
      have hafter := (resendIfNeeded_eq_ok hf).1
      unfold AfterCheck at hafter
      rw [hq] at hafter
      split at hafter
      · obtain ⟨n, -, hafter⟩ := hafter
        split at hafter
        · cases hafter
        · rw [Option.some.inj hafter]
          show 0 < n
          omega
      · rw [Option.some.inj hafter]
        exact h id p hp) hr
  intro id p' hp'
  cases hg : window.get id with
  | none => rw [hret.absent id hg] at hp'; cases hp'
  | some p =>
    exact hret.visited id (RingBuffer.mem_window.mpr (RingBuffer.dist_of_get hg)) p hg p' hp'

end Send

/-! ## What the calls need -/

/-- The messages that wait fit a packet, and the packets that wait may still be sent. -/
structure InnerUdpCommunicator.Supplied [ByteRepr S] (com : InnerUdpCommunicator S R) : Prop where
  queue : ∀ channel, ∀ m ∈ com.queueOf channel, fits m = true
  retries : ∀ ordered id p, (com.sendWindow ordered).get id = some p → 0 < p.remainingRetries

section Supplied

variable [ByteRepr S] {com com' : InnerUdpCommunicator S R} {socket : UdpCommunicatorSocket Buf}

theorem FlushedInto.ordered_eq {now : Instant} {retries : Nat}
    {reliableReceived : RingBuffer Unit 32} {orderedReceived : RingBuffer (Packet R) 32}
    {ordered : Bool} {window : RingBuffer (PendingPacket S) 32} {queue : List S}
    {st : FlushState S} (h : FlushedInto now retries reliableReceived orderedReceived ordered
      window queue st) : ∀ p ∈ st.built, p.ordered = ordered := by
  intro p hp
  obtain ⟨j, hj⟩ := List.mem_iff_getElem?.mp hp
  exact (h.header j p hj).2.2

/-- What the call of `send` has made of the window and the queue of a channel. -/
theorem beginSend_flushed {now : Instant} {packets : List (Packet S)}
    (h : com.beginSend now socket = .ok (com', packets)) (ordered : Bool) :
    Flushed now (socket.maxRetries ordered) com.reliableReceivedPackets
      com.reliableOrderedReceivedPackets ordered (com.sendWindow ordered) (com.sendQueue ordered)
      ⟨com'.sendWindow ordered, com'.sendQueue ordered,
        packets.filter (·.ordered == ordered)⟩ := by
  obtain ⟨id, waiting, hprimed, -⟩ := com.primed_eq
  rw [beginSend_eq, flush_eq_ok, hprimed] at h
  obtain ⟨u, o, r, hu, ho, -, rfl, rfl⟩ := h
  obtain ⟨u', hu', hU⟩ := flushMessages_spec now socket.maxReliableUnorderedRetries
    com.reliableReceivedPackets com.reliableOrderedReceivedPackets false com.reliableSendPackets
    com.reliableSendQueue
  obtain ⟨o', ho', hO⟩ := flushMessages_spec now socket.maxReliableOrderedRetries
    com.reliableReceivedPackets com.reliableOrderedReceivedPackets true
    com.reliableOrderedSendPackets com.reliableOrderedSendQueue
  obtain rfl : u = u' := Outcome.ok.inj (hu.symm.trans hu')
  obtain rfl : o = o' := Outcome.ok.inj (ho.symm.trans ho')
  obtain ⟨eu, eo⟩ := filter_built hU.ordered_eq hO.ordered_eq
  cases ordered
  · rw [eu]
    exact hU
  · rw [eo]
    exact hO

theorem queueOf_beginSend {now : Instant} {packets : List (Packet S)}
    (hb : com.beginSend now socket = .ok (com', packets)) (channel : Channel) :
    com'.queueOf channel ⊆ com.queueOf channel := by
  cases channel with
  | unreliable =>
    obtain ⟨-, -, -, hempty, -⟩ := beginSend_unreliable hb
    unfold queueOf
    rw [hempty]
    exact List.nil_subset _
  | reliable ordered =>
    show com'.sendQueue ordered ⊆ com.sendQueue ordered
    rw [(beginSend_flushed hb ordered).partition]
    exact List.subset_append_right _ _

omit [ByteRepr S] in
theorem queueOf_sendPackets {link : Link S Buf D} {env : SendEnv S} {st : SendState Buf D}
    {error : Option ByteReprError} (hs : com.sendPackets link env socket = .ok (com', st, error))
    (channel : Channel) : com'.queueOf channel = com.queueOf channel := by
  obtain ⟨u, st1, o, st2, lastSend, -, -, -, rfl⟩ := sendPackets_eq_ok hs
  cases channel with
  | unreliable => rfl
  | reliable ordered => cases ordered <;> rfl

omit [ByteRepr S] in
theorem queueOf_onPacket (now : Instant) (packet : Packet R) (channel : Channel) :
    (com.onPacket now packet).queueOf channel = com.queueOf channel := by
  obtain ⟨-, hqueue, huq, -⟩ := onPacket_sendSide now com packet
  cases channel with
  | unreliable => exact huq
  | reliable ordered => exact hqueue ordered

theorem InnerUdpCommunicator.Supplied.beginSend (h : com.Supplied) {now : Instant}
    {packets : List (Packet S)} (hmax : ∀ ordered, 0 < socket.maxRetries ordered)
    (hb : com.beginSend now socket = .ok (com', packets)) : com'.Supplied := by
  refine ⟨fun channel m hm => h.queue channel m (queueOf_beginSend hb channel hm),
    fun ordered id p hp => ?_⟩
  rcases ((beginSend_flushed hb ordered).pending id p).mp hp with hp | ⟨_, _, -, -, rfl⟩
  · exact h.retries ordered id p hp
  · exact hmax ordered

theorem InnerUdpCommunicator.Supplied.sendPackets (h : com.Supplied) {link : Link S Buf D}
    {env : SendEnv S} {st : SendState Buf D} {error : Option ByteReprError}
    (hs : com.sendPackets link env socket = .ok (com', st, error)) : com'.Supplied := by
  refine ⟨fun channel m hm => h.queue channel m (queueOf_sendPackets hs channel ▸ hm), ?_⟩
  obtain ⟨u, st1, o, st2, lastSend, hu, ho, -, rfl⟩ := sendPackets_eq_ok hs
  intro ordered
  cases ordered
  · exact retries_retain (h.retries false) hu
  · exact retries_retain (h.retries true) ho

/-- A call of `send` from such a state returns without an error. -/
theorem InnerUdpCommunicator.Supplied.send_returns (h : com.Supplied) {link : Link S Buf D}
    (hlink : link.Faithful) (hfits : com.PacketsFit) (env : SendEnv S)
    (hmax : ∀ ordered, 0 < socket.maxRetries ordered) :
    ∃ com' built st, com.send link env socket = .ok (com', built, st, none) := by
  obtain ⟨begun, built, hb⟩ := beginSend_returns env.now socket (h.queue .unreliable)
  have hbegun := h.beginSend hmax hb
  have hfits := hfits.beginSend hb
  obtain ⟨u, st1, hu⟩ := retain_returns env socket hlink
    (fun id p hp => ⟨hfits.unordered id p hp, hbegun.retries false id p hp⟩)
    { buf := socket.dataBuffer }
  obtain ⟨o, st2, ho⟩ := retain_returns env socket hlink
    (fun id p hp => ⟨hfits.ordered id p hp, hbegun.retries true id p hp⟩) st1
  obtain ⟨st, hr⟩ := sendUnreliable_returns env hlink hfits.unreliable 0 st2
  unfold InnerUdpCommunicator.send InnerUdpCommunicator.sendPackets
  simp only [hb, hu, ho, hr, Outcome.bind_ok, Outcome.pure_def]
  exact ⟨_, _, _, rfl⟩

omit [ByteRepr S] in
theorem packetsFit_of_sender [ByteRepr S] {x : Endpoint S R Buf} {written : Channel → List S}
    (h : x.Sender written) : x.com.PacketsFit where
  unordered id p hp := ((h.send false).sendable id p hp).2
  ordered id p hp := ((h.send true).sendable id p hp).2
  unreliable := h.waiting_dataLen

end Supplied

/-! ## Steps of the code -/

section Step

variable [ByteRepr S] {out : Link S Buf D} {inn : Link R Buf D} {x x' : Endpoint S R Buf}
  {incoming new : List (Datagram D)}

theorem InnerUdpCommunicator.Supplied.onPacket {com : InnerUdpCommunicator S R}
    (h : com.Supplied) (now : Instant) (packet : Packet R) :
    (com.onPacket now packet).Supplied := by
  obtain ⟨hwindow, -⟩ := onPacket_sendSide now com packet
  refine ⟨fun channel m hm => h.queue channel m (queueOf_onPacket now packet channel ▸ hm),
    fun ordered id p hp => ?_⟩
  rcases hwindow with ⟨-, hw⟩ | ⟨-, hw⟩
  · rw [hw] at hp
    exact h.retries ordered id p hp
  · rw [hw, get_takeAcked] at hp
    split at hp
    · cases hp
    · exact h.retries ordered id p hp

/-- What waits after a step waited before or was written by it. -/
theorem queueOf_step {event : Event S} (hs : x.step out inn incoming event = some (x', new))
    {channel : Channel} {m : S} (hm : m ∈ x'.com.queueOf channel) :
    m ∈ x.com.queueOf channel ∨ m ∈ event.written channel := by
  cases event with
  | write message | writeReliable message | writeOrdered message =>
    cases hs
    cases channel with
    | unreliable =>
      first
        | exact .inl hm
        | exact List.mem_append.mp hm
    | reliable ordered =>
      cases ordered
      all_goals
        first
          | exact .inl hm
          | exact List.mem_append.mp hm
  | writeHeartbeat | read | readOrdered | topUp =>
    cases hs
    refine .inl ?_
    cases channel with
    | unreliable => exact hm
    | reliable ordered => cases ordered <;> exact hm
  | send env =>
    obtain ⟨com, packets, com', st, error, hb, hp, rfl, -⟩ := Endpoint.send_eq_some.mp hs
    refine .inl (queueOf_beginSend hb channel ?_)
    exact queueOf_sendPackets hp channel ▸ hm
  | deliver place now =>
    simp only [Endpoint.step] at hs
    split at hs
    · rename_i d hd
      simp only [Option.map_eq_some_iff, Prod.mk.injEq] at hs
      obtain ⟨z, hz, rfl, -⟩ := hs
      unfold Endpoint.deliver at hz
      split at hz
      · rename_i packet _
        cases hz
        exact .inl (queueOf_onPacket now packet channel ▸ hm)
      · cases hz
        exact .inl hm
      · cases hz
    · cases hs

theorem Event.Small.fits_written {event : Event S} (h : event.Small) (channel : Channel) :
    ∀ m ∈ event.written channel, fits m = true := by
  intro m hm
  cases event with
  | write message | writeReliable message | writeOrdered message =>
    simp only [Event.written] at hm
    split at hm
    · exact List.mem_singleton.mp hm ▸ h
    · cases hm
  | _ => cases hm

/-- Small writes keep the queues filled with messages that fit. -/
theorem fits_step {event : Event S} (h : ∀ channel, ∀ m ∈ x.com.queueOf channel, fits m = true)
    (hsmall : event.Small) (hs : x.step out inn incoming event = some (x', new)) :
    ∀ channel, ∀ m ∈ x'.com.queueOf channel, fits m = true := fun channel m hm =>
  (queueOf_step hs hm).elim (h channel m) (hsmall.fits_written channel m)

/-- The steps of the code leave the configuration alone. -/
theorem maxRetries_step {event : Event S}
    (hcode : (Action.atA event : Action S R).ofCode = true)
    (hs : x.step out inn incoming event = some (x', new)) (ordered : Bool) :
    x'.socket.maxRetries ordered = x.socket.maxRetries ordered := by
  cases event with
  | send env =>
    obtain ⟨com, packets, com', st, error, -, -, rfl, -⟩ := Endpoint.send_eq_some.mp hs
    cases ordered <;> rfl
  | deliver place now =>
    simp only [Endpoint.step] at hs
    split at hs
    · simp only [Option.map_eq_some_iff, Prod.mk.injEq] at hs
      obtain ⟨z, hz, rfl, -⟩ := hs
      unfold Endpoint.deliver at hz
      split at hz <;> cases hz <;> cases ordered <;> rfl
    · cases hs
  | topUp retries => cases hcode
  | _ =>
    cases hs
    rfl

/-- The steps of the code keep what the calls need. -/
theorem InnerUdpCommunicator.Supplied.step (h : x.com.Supplied)
    (hmax : ∀ ordered, 0 < x.socket.maxRetries ordered) {event : Event S} (hsmall : event.Small)
    (hcode : (Action.atA event : Action S R).ofCode = true)
    (hs : x.step out inn incoming event = some (x', new)) : x'.com.Supplied := by
  refine ⟨fits_step h.queue hsmall hs, ?_⟩
  cases event with
  | send env =>
    obtain ⟨com, packets, com', st, error, hb, hp, rfl, -⟩ := Endpoint.send_eq_some.mp hs
    exact ((h.beginSend hmax hb).sendPackets hp).retries
  | deliver place now =>
    simp only [Endpoint.step] at hs
    split at hs
    · rename_i d hd
      simp only [Option.map_eq_some_iff, Prod.mk.injEq] at hs
      obtain ⟨z, hz, rfl, -⟩ := hs
      unfold Endpoint.deliver at hz
      split at hz
      · cases hz
        exact (h.onPacket now _).retries
      · cases hz
        exact h.retries
      · cases hz
    · cases hs
  | topUp retries => cases hcode
  | _ =>
    cases hs
    exact Bool.forall_bool.mpr ⟨h.retries false, h.retries true⟩

end Step

/-! ## Every call -/

namespace System

variable [ByteRepr S] [ByteRepr R] {la : Link S Buf D} {lb : Link R Buf D}
  {s t : System S R Buf D}

/-- The steps of the code, with messages that fit a packet. -/
def Honest (s : System S R Buf D) (act : Action S R) : Prop :=
  SmallWrites s act ∧ act.ofCode = true

theorem Reachable.onRecord {policy : System S R Buf D → Action S R → Prop} (hla : la.Faithful)
    (hlb : lb.Faithful) (h : Reachable la lb policy s) :
    ∃ written written', OnRecord la lb written written' s := by
  induction h with
  | initial h => exact ⟨_, _, h.onRecord⟩
  | step _ _ hs ih =>
    obtain ⟨written, written', h⟩ := ih
    exact ⟨_, _, h.step hla hlb hs⟩

omit [ByteRepr R] in
theorem supplied_start (socket : UdpCommunicatorSocket Buf) (lastSeen lastSend : Instant) :
    (Endpoint.start socket lastSeen lastSend : Endpoint S R Buf).com.Supplied where
  queue channel m hm := by
    cases channel with
    | unreliable => cases hm
    | reliable ordered => cases ordered <;> cases hm
  retries ordered id p hp := by
    have hnone : (RingBuffer.new : RingBuffer (PendingPacket S) 32).get id = none :=
      RingBuffer.get_new id
    cases ordered <;> exact absurd (hnone.symm.trans hp) (by simp)

/-- What the calls of `a` need, if a reliable packet may be sent at least once. -/
theorem Reachable.supplied (h : Reachable la lb Honest s) :
    ((∀ ordered, 0 < s.a.socket.maxRetries ordered) → s.a.com.Supplied) ∧
      ((∀ ordered, 0 < s.b.socket.maxRetries ordered) → s.b.com.Supplied) := by
  induction h with
  | initial h =>
    obtain ⟨socketA, socketB, t1, t2, t3, t4⟩ := h
    exact ⟨fun _ => supplied_start _ _ _, fun _ => supplied_start _ _ _⟩
  | @step s t act _ hp hs ih =>
    obtain ⟨hsmall, hcode⟩ := hp
    cases act with
    | atA event =>
      simp only [System.step, System.stepA] at hs
      split at hs
      · rename_i a new hstep
        cases hs
        have hsame := maxRetries_step hcode hstep
        refine ⟨fun hmax => ?_, ih.2⟩
        have hmax : ∀ ordered, 0 < s.a.socket.maxRetries ordered := fun o => hsame o ▸ hmax o
        exact (ih.1 hmax).step hmax hsmall hcode hstep
      · cases hs
    | atB event =>
      simp only [System.step, System.stepB] at hs
      split at hs
      · rename_i b new hstep
        cases hs
        have hcode : (Action.atA event : Action R S).ofCode = true := by cases event <;> exact hcode
        have hsame := maxRetries_step hcode hstep
        refine ⟨ih.1, fun hmax => ?_⟩
        have hmax : ∀ ordered, 0 < s.b.socket.maxRetries ordered := fun o => hsame o ▸ hmax o
        exact (ih.2 hmax).step hmax hsmall hcode hstep
      · cases hs

/-- In every state of an honest connection, over any network, and for everything the clock and
the socket may answer, `send` returns without an error, and every datagram of the other side that
may come in is read as a packet. -/
theorem calls_return (hla : la.Faithful) (hlb : lb.Faithful) (h : Reachable la lb Honest s)
    (hmax : ∀ ordered, 0 < s.a.socket.maxRetries ordered) :
    (∀ env, ∃ com built st, s.a.com.send la env s.a.socket = .ok (com, built, st, none)) ∧
      ∀ d ∈ s.ba, ∃ packet, ∀ buf, (lb.read d.body buf).2 = .ok (some packet) := by
  obtain ⟨written, written', hrec⟩ := h.onRecord hla hlb
  refine ⟨fun env => ?_, fun d hd => ?_⟩
  · exact (h.supplied.1 hmax).send_returns hla (packetsFit_of_sender hrec.a) env hmax
  · obtain ⟨b, -, hread⟩ := hrec.ba d hd
    exact ⟨b.packet, hread⟩

/-- Both sides have written and sent. -/
def answered : System Bool Bool DataBuffer Bytes :=
  (exchange.after demoLink demoLink (.atB (.writeReliable true))).after demoLink demoLink
    (.atB (.send (envAt Bool 0)))

theorem reachable_answered : Reachable demoLink demoLink Honest answered := by
  unfold answered exchange
  refine .after (.after (.after (.after (.after (.initial ?_) ?_) ?_) ?_) ?_) ?_
  · exact .start _ _ 0 0 0 0
  · exact ⟨rfl, rfl⟩
  · exact ⟨rfl, rfl⟩
  · exact ⟨trivial, rfl⟩
  · exact ⟨rfl, rfl⟩
  · exact ⟨trivial, rfl⟩

theorem calls_return_answered :
    (∀ env, ∃ com built st,
      answered.a.com.send demoLink env answered.a.socket = .ok (com, built, st, none)) ∧
      ∀ d ∈ answered.ba, ∃ packet, ∀ buf, (demoLink.read d.body buf).2 = .ok (some packet) :=
  calls_return demoLink_faithful demoLink_faithful reachable_answered (by decide +kernel)

-- a datagram is on the way to each side
example : answered.ab.length = 2 ∧ answered.ba.length = 1 := by decide +kernel

end System

end MiniUdp
