import MiniUdp.System.Invariant

/-!
# What sending does

`flush_messages` appends packets to the logs (`FlushInv`), `send_packets` hands
packets of the windows and the waiting unreliable ones to the socket and may
give packets up. Neither touches the receiving side.
-/

namespace MiniUdp

open Serial While

variable {S R Buf D : Type} [ByteRepr S]

/-! ## Flushing a reliable queue -/

section Flush

variable {now : Instant} {retries : Nat} {reliableReceived : RingBuffer Unit 32}
  {orderedReceived : RingBuffer (Packet R) 32} {ordered : Bool} {named : Named}
  {window : RingBuffer (PendingPacket S) 32} {log : List (Built S)} {queue wrote : List S}

/-- The invariant of the loop over a reliable queue, from the window and log it starts with. -/
structure FlushInv (reliableReceived : RingBuffer Unit 32)
    (orderedReceived : RingBuffer (Packet R) 32) (ordered : Bool) (named : Named)
    (window : RingBuffer (PendingPacket S) 32) (log : List (Built S)) (wrote : List S)
    (st : FlushState S) : Prop where
  send : SendInv ordered st.sendPackets (log ++ st.built.map (Built.mk · named)) st.sendQueue wrote
  built : ∀ p ∈ st.built, p.ordered = ordered ∧
    p.ack = PacketAck.new p.ack.sequenceId reliableReceived orderedReceived
  cover : ∀ accepted, (viewOf window log.length accepted).Inv 32 →
    (viewOf st.sendPackets (log ++ st.built.map (Built.mk · named)).length accepted).Inv 32
  pending : ∀ k ∈ pendingIn st.sendPackets (log ++ st.built.map (Built.mk · named)).length,
    k ∈ pendingIn window log.length ∨ log.length ≤ k

theorem FlushInv.start (h : SendInv ordered window log queue wrote) :
    FlushInv reliableReceived orderedReceived ordered named window log wrote
      { sendPackets := window, sendQueue := queue } where
  send := by simpa using h
  built p hp := by cases hp
  cover accepted hc := by simpa using hc
  pending k hk := .inl (by simpa using hk)

theorem FlushInv.body {st : FlushState S}
    (h : FlushInv reliableReceived orderedReceived ordered named window log wrote st)
    (hg : flushGuard st = true) :
    FlushInv reliableReceived orderedReceived ordered named window log wrote
      (flushBody now retries reliableReceived orderedReceived ordered st) := by
  rw [flushGuard, Bool.and_eq_true, Bool.not_eq_true'] at hg
  let packet : Packet S :=
    { ack := .new st.sendPackets.getNextIndex reliableReceived orderedReceived
      reliable := true
      ordered
      messages := st.sendQueue.take (includedMsgs MAX_PACKET_DATA_LEN st.sendQueue) }
  let pending : PendingPacket S :=
    { lastSend := now - fromHours 1, remainingRetries := retries, packet }
  have hbody : flushBody now retries reliableReceived orderedReceived ordered st =
      { sendPackets := st.sendPackets.push pending
        sendQueue := st.sendQueue.drop (includedMsgs MAX_PACKET_DATA_LEN st.sendQueue)
        built := st.built ++ [packet] } := rfl
  have hlog : log ++ (st.built ++ [packet]).map (Built.mk · named) =
      (log ++ st.built.map (Built.mk · named)) ++ [⟨packet, named⟩] := by simp
  rw [hbody]
  refine ⟨?_, ?_, ?_, ?_⟩
  · show SendInv ordered (st.sendPackets.push pending) (log ++ (st.built ++ [packet]).map _) _ _
    rw [hlog]
    exact h.send.push (p := pending) rfl rfl rfl (dataLen_includedMsgs _ _)
      (List.take_append_drop _ _).symm
  · intro p hp
    rcases List.mem_append.mp hp with hp | hp
    · exact h.built p hp
    · rw [List.mem_singleton.mp hp]
      exact ⟨rfl, rfl⟩
  · intro accepted hc
    show (viewOf (st.sendPackets.push pending)
      (log ++ (st.built ++ [packet]).map (Built.mk · named)).length accepted).Inv 32
    rw [hlog, List.length_append]
    exact (h.cover accepted hc).alloc (h.send.alloc pending hg.1 accepted) (by decide)
  · intro k hk
    have hk : k ∈ pendingIn (st.sendPackets.push pending)
      (log ++ (st.built ++ [packet]).map (Built.mk · named)).length := hk
    rw [hlog, List.length_append] at hk
    rcases ((h.send.alloc pending hg.1 []).pending k).mp hk with hk | hk
    · refine .inr ?_
      have hk : k = (log ++ st.built.map (Built.mk · named)).length := hk
      rw [hk, List.length_append]
      exact Nat.le_add_right _ _
    · exact h.pending k hk

theorem flushMessages_inv (named : Named) {st : FlushState S} (h : SendInv ordered window log queue wrote)
    (hf : flushMessages now retries reliableReceived orderedReceived ordered window queue =
      .ok st) :
    FlushInv reliableReceived orderedReceived ordered named window log wrote st := by
  unfold flushMessages at hf
  split at hf
  · rename_i st' hrun
    cases hf
    exact (runWhile_invariant (P := FlushInv reliableReceived orderedReceived ordered named window
      log wrote) (fun _ h hg => h.body hg) (.start h) hrun).1
  · cases hf

end Flush

/-! ## Flushing the unreliable queue -/

/-- The unreliable packets built by a flush. -/
structure UnreliableInv (reliableReceived : RingBuffer Unit 32)
    (orderedReceived : RingBuffer (Packet R) 32) (waiting : List (Packet S))
    (packets : List (Packet S)) : Prop where
  built : ∃ new, packets = waiting ++ new ∧ ∀ p ∈ new, p.reliable = false ∧
    Packet.dataLen p.messages ≤ MAX_PACKET_DATA_LEN ∧
    p.ack = PacketAck.new p.ack.sequenceId reliableReceived orderedReceived

theorem UnreliableInv.append {reliableReceived : RingBuffer Unit 32}
    {orderedReceived : RingBuffer (Packet R) 32} {waiting packets : List (Packet S)}
    (h : UnreliableInv reliableReceived orderedReceived waiting packets) {p : Packet S}
    (hp : p.reliable = false ∧ Packet.dataLen p.messages ≤ MAX_PACKET_DATA_LEN ∧
      p.ack = PacketAck.new p.ack.sequenceId reliableReceived orderedReceived) :
    UnreliableInv reliableReceived orderedReceived waiting (packets ++ [p]) := by
  obtain ⟨new, rfl, hnew⟩ := h.built
  refine ⟨new ++ [p], by simp, fun q hq => ?_⟩
  rcases List.mem_append.mp hq with hq | hq
  · exact hnew q hq
  · rw [List.mem_singleton.mp hq]; exact hp

theorem flushUnreliable_inv {reliableReceived : RingBuffer Unit 32}
    {orderedReceived : RingBuffer (Packet R) 32} {waiting : List (Packet S)}
    {st st' : UnreliableState S}
    (h : UnreliableInv reliableReceived orderedReceived waiting st.sendPackets)
    (hf : flushUnreliable reliableReceived orderedReceived st = .ok st') :
    UnreliableInv reliableReceived orderedReceived waiting st'.sendPackets ∧ st'.sendQueue = [] := by
  unfold flushUnreliable at hf
  split at hf
  · rename_i st'' hrun
    cases hf
    obtain ⟨hinv, hg⟩ := runWhile_invariant (P := fun st =>
      UnreliableInv reliableReceived orderedReceived waiting st.sendPackets)
      (fun st h _ => h.append ⟨rfl, dataLen_includedMsgs _ _, rfl⟩) h hrun
    exact ⟨hinv, by simpa [unreliableGuard] using hg⟩
  · cases hf

/-! ## Building packets -/

namespace InnerUdpCommunicator

/-- The communicator when the queues are flushed. -/
def primed (com : InnerUdpCommunicator S R) : InnerUdpCommunicator S R :=
  { (if com.heartbeatDue then com.writeHeartbeat else com) with receivedPacketDuplicate := false }

theorem beginSend_eq (com : InnerUdpCommunicator S R) (now : Instant)
    (socket : UdpCommunicatorSocket Buf) :
    com.beginSend now socket = com.primed.flush now socket := rfl

/-- A heartbeat changes nothing but the unreliable packets. -/
theorem primed_eq (com : InnerUdpCommunicator S R) : ∃ id packets,
    com.primed = { com with
      receivedPacketDuplicate := false
      unreliableSendPacketId := id
      unreliableSendPackets := packets } ∧
    UnreliableInv com.reliableReceivedPackets com.reliableOrderedReceivedPackets
      com.unreliableSendPackets packets := by
  have hstart : UnreliableInv com.reliableReceivedPackets com.reliableOrderedReceivedPackets
      com.unreliableSendPackets com.unreliableSendPackets := ⟨[], by simp⟩
  by_cases hdue : com.heartbeatDue = true
  · refine ⟨_, _, by rw [primed, if_pos hdue]; rfl, hstart.append ⟨rfl, ?_, rfl⟩⟩
    exact Nat.zero_le _
  · exact ⟨_, _, by rw [primed, if_neg hdue], hstart⟩

end InnerUdpCommunicator

/-- What a call of `send` builds, from an endpoint `x`. -/
structure Begins (x : Endpoint S R Buf) (com : InnerUdpCommunicator S R)
    (packets : List (Packet S)) : Prop where
  channel : ∀ ordered, FlushInv x.com.reliableReceivedPackets x.com.reliableOrderedReceivedPackets
    ordered x.named (x.com.sendWindow ordered) (x.log ordered) (x.wrote ordered)
    ⟨com.sendWindow ordered, com.sendQueue ordered, packets.filter (·.ordered == ordered)⟩
  unreliable : UnreliableInv x.com.reliableReceivedPackets x.com.reliableOrderedReceivedPackets
    x.com.unreliableSendPackets com.unreliableSendPackets
  receiver : (x.build com packets).receiver = x.receiver

omit [ByteRepr S] in
/-- The packets of one channel among those built for both. -/
theorem filter_built {u o : List (Packet S)} (hu : ∀ p ∈ u, p.ordered = false)
    (ho : ∀ p ∈ o, p.ordered = true) :
    (u ++ o).filter (·.ordered == false) = u ∧ (u ++ o).filter (·.ordered == true) = o := by
  rw [List.filter_append, List.filter_append]
  constructor
  · rw [List.filter_eq_self.mpr (by simpa using hu),
      List.filter_eq_nil_iff.mpr (by simpa using ho), List.append_nil]
  · rw [List.filter_eq_nil_iff.mpr (by simpa using hu),
      List.filter_eq_self.mpr (by simpa using ho), List.nil_append]

theorem begins_of_send {x : Endpoint S R Buf}
    (h : ∀ ordered, SendInv ordered (x.com.sendWindow ordered) (x.log ordered)
      (x.com.sendQueue ordered) (x.wrote ordered)) {now : Instant}
    {com : InnerUdpCommunicator S R} {packets : List (Packet S)}
    (hb : x.com.beginSend now x.socket = .ok (com, packets)) : Begins x com packets := by
  obtain ⟨id, waiting, hprimed, hwait⟩ := x.com.primed_eq
  rw [InnerUdpCommunicator.beginSend_eq, InnerUdpCommunicator.flush_eq_ok, hprimed] at hb
  obtain ⟨u, o, r, hu, ho, hr, rfl, rfl⟩ := hb
  have hU := flushMessages_inv x.named (h false) hu
  have hO := flushMessages_inv x.named (h true) ho
  obtain ⟨eu, eo⟩ := filter_built (fun p hp => (hU.built p hp).1) fun p hp => (hO.built p hp).1
  refine ⟨fun ordered => ?_, (flushUnreliable_inv hwait hr).1, rfl⟩
  cases ordered
  · rw [eu]; exact hU
  · rw [eo]; exact hO

theorem Endpoint.Inv.begins {x : Endpoint S R Buf} (h : x.Inv) {now : Instant}
    {com : InnerUdpCommunicator S R} {packets : List (Packet S)}
    (hb : x.com.beginSend now x.socket = .ok (com, packets)) : Begins x com packets :=
  begins_of_send h.send hb

/-- What the steps of the sending half do: they keep the invariant and the receiving half, and
what they hand to the socket is read as packets of the record. -/
structure Sends (link : Link S Buf D) (x x' : Endpoint S R Buf) (out : List (Datagram D)) :
    Prop where
  inv : x'.Inv
  receiver : x'.receiver = x.receiver
  step : ∀ accepted, SenderStep accepted x x'
  out : ∀ d ∈ out, Carries link x' d

section Build

variable {x : Endpoint S R Buf} {com : InnerUdpCommunicator S R} {packets : List (Packet S)}

omit [ByteRepr S] in
theorem log_build (ordered : Bool) : (x.build com packets).log ordered =
    x.log ordered ++ (packets.filter (·.ordered == ordered)).map (Built.mk · x.named) := by
  cases ordered <;> rfl

omit [ByteRepr S] in
theorem builtIn_build (channel : Channel) :
    x.builtIn channel <+: (x.build com packets).builtIn channel := by
  cases channel with
  | unreliable => exact List.prefix_append _ _
  | reliable ordered =>
    show x.log ordered <+: (x.build com packets).log ordered
    rw [log_build]
    exact List.prefix_append _ _

/-- What is added to the logs is acknowledged by what has been accepted so far. -/
theorem Begins.fresh_of_le (hb : Begins x com packets) {channel : Channel} {k : Nat} {b : Built S}
    (h : ((x.build com packets).builtIn channel)[k]? = some b)
    (hk : (x.builtIn channel).length ≤ k) :
    b.named = x.named ∧ b.packet.ack = PacketAck.new b.packet.ack.sequenceId
      x.com.reliableReceivedPackets x.com.reliableOrderedReceivedPackets := by
  cases channel with
  | unreliable =>
    obtain ⟨new, hnew, hp⟩ := hb.unreliable.built
    have h : (x.unreliableLog ++ (com.unreliableSendPackets.drop
      x.com.unreliableSendPackets.length).map (Built.mk · x.named))[k]? = some b := h
    have hk : x.unreliableLog.length ≤ k := hk
    rw [hnew, List.drop_left, List.getElem?_append_right hk] at h
    obtain ⟨p, hmem, rfl⟩ := List.mem_map.mp (List.mem_of_getElem? h)
    exact ⟨rfl, (hp p hmem).2.2⟩
  | reliable ordered =>
    have h : ((x.build com packets).log ordered)[k]? = some b := h
    have hk : (x.log ordered).length ≤ k := hk
    rw [log_build, List.getElem?_append_right hk] at h
    obtain ⟨p, hmem, rfl⟩ := List.mem_map.mp (List.mem_of_getElem? h)
    exact ⟨rfl, ((hb.channel ordered).built p hmem).2⟩

theorem Begins.fresh (hb : Begins x com packets) {channel : Channel} {b : Built S}
    (h : b ∈ (x.build com packets).builtIn channel) : b ∈ x.builtIn channel ∨
      b.named = x.named ∧ b.packet.ack = PacketAck.new b.packet.ack.sequenceId
        x.com.reliableReceivedPackets x.com.reliableOrderedReceivedPackets := by
  obtain ⟨k, hk⟩ := List.mem_iff_getElem?.mp h
  by_cases hlt : k < (x.builtIn channel).length
  · obtain ⟨added, hadded⟩ : x.builtIn channel <+: (x.build com packets).builtIn channel :=
      builtIn_build channel
    rw [← hadded, List.getElem?_append_left hlt] at hk
    exact .inl (List.mem_of_getElem? hk)
  · exact .inr (hb.fresh_of_le hk (Nat.le_of_not_lt hlt))

theorem Begins.inv (h : x.Inv) (hb : Begins x com packets) : (x.build com packets).Inv where
  send ordered := by
    rw [log_build]
    exact (hb.channel ordered).send
  receiver := hb.receiver ▸ h.receiver
  acks channel b hmem ordered := by
    rcases hb.fresh hmem with hmem | ⟨hn, ha⟩
    · exact h.acks channel b hmem ordered
    · rw [hn, ha]
      have hof : x.named.of ordered = top (x.accepted ordered) := x.receiver.of_named ordered
      rw [hof]
      exact AckOk.new (h.receiver.windows ordered) _
  waiting := by
    obtain ⟨before, hbefore⟩ := h.waiting
    obtain ⟨new, hnew, -⟩ := hb.unreliable.built
    refine ⟨before, ?_⟩
    show (x.unreliableLog ++ (com.unreliableSendPackets.drop
      x.com.unreliableSendPackets.length).map (Built.mk · x.named)).map Built.packet =
      before ++ com.unreliableSendPackets
    have hid : new.map (Built.packet ∘ (Built.mk · x.named)) = new := List.map_id new
    rw [hnew, List.drop_left, List.map_append, hbefore, List.map_map, List.append_assoc, hid]
  unreliable b hmem := by
    obtain ⟨new, hnew, hp⟩ := hb.unreliable.built
    have hmem : b ∈ x.unreliableLog ++ (com.unreliableSendPackets.drop
      x.com.unreliableSendPackets.length).map (Built.mk · x.named) := hmem
    rw [hnew, List.drop_left, List.mem_append, List.mem_map] at hmem
    rcases hmem with hmem | ⟨p, hnew, rfl⟩
    · exact h.unreliable b hmem
    · exact ⟨(hp p hnew).1, (hp p hnew).2.1⟩

theorem Begins.sends (link : Link S Buf D) (h : x.Inv) (hb : Begins x com packets) :
    Sends link x (x.build com packets) [] where
  inv := hb.inv h
  receiver := hb.receiver
  step accepted :=
    { log := builtIn_build
      pending := fun ordered k hk => by
        rw [Endpoint.pending, log_build] at hk
        exact (hb.channel ordered).pending k hk
      acked := fun k hk => .inl hk
      cover := fun hg => ⟨hg, fun ordered hv => by
        have := (hb.channel ordered).cover _ hv
        rw [← log_build] at this
        exact this⟩ }
  out d hd := by cases hd

end Build

/-! ## Handing packets to the socket -/

section Hand

variable {link : Link S Buf D} {env : SendEnv S} {socket : UdpCommunicatorSocket Buf}
  {ordered : Bool} {window window' : RingBuffer (PendingPacket S) 32}

namespace InnerUdpCommunicator.SendState

/-- The datagrams of a reliable channel. -/
def handed (st : SendState Buf D) (ordered : Bool) : List (UInt16 × D) :=
  if ordered then st.ordered else st.unordered

theorem handed_hand (st : SendState Buf D) (ordered o : Bool) (id : UInt16) (d : D) :
    (st.hand ordered id d).handed o =
      st.handed o ++ if o = ordered then [(id, d)] else [] := by
  cases ordered <;> cases o <;> simp [hand, handed]

theorem unreliable_hand (st : SendState Buf D) (ordered : Bool) (id : UInt16) (d : D) :
    (st.hand ordered id d).unreliable = st.unreliable := by
  cases ordered <;> rfl

end InnerUdpCommunicator.SendState

open InnerUdpCommunicator

/-- The datagrams are read as packets of the window with these numbers. -/
def Handed (link : Link S Buf D) (window : RingBuffer (PendingPacket S) 32)
    (sent : List (UInt16 × D)) : Prop :=
  ∀ d ∈ sent, ∃ p, window.get d.1 = some p ∧ ∀ buf, (link.read d.2 buf).2 = .ok (some p.packet)

/-- One packet of a window: it stays the same packet, and at most its own datagram is added. -/
theorem resendIfNeeded_spec (hlink : link.Faithful) {id : UInt16} {p p' : PendingPacket S}
    {st st' : SendState Buf D} {keep : Bool}
    (hlen : Packet.dataLen p.packet.messages ≤ MAX_PACKET_DATA_LEN)
    (h : resendIfNeeded link env socket id p st = .ok (keep, p', st')) :
    p'.packet = p.packet ∧ st'.unreliable = st.unreliable ∧
      (∀ o, o ≠ p.packet.ordered → st'.handed o = st.handed o) ∧
      ∀ d ∈ st'.handed p.packet.ordered, d ∈ st.handed p.packet.ordered ∨
        d.1 = id ∧ ∀ buf, (link.read d.2 buf).2 = .ok (some p.packet) := by
  unfold resendIfNeeded at h
  split at h
  · obtain ⟨buf', d, hw, hread⟩ := hlink p.packet hlen st.buf
    simp only [hw, Outcome.bind_eq_ok, Outcome.pure_def, Outcome.ok.injEq, Prod.mk.injEq] at h
    obtain ⟨n, -, -, rfl, rfl⟩ := h
    split
    · refine ⟨rfl, SendState.unreliable_hand _ _ _ _, fun o ho => ?_, fun e he => ?_⟩
      · rw [SendState.handed_hand, if_neg ho, List.append_nil]
        rfl
      · rw [SendState.handed_hand, if_pos rfl, List.mem_append, List.mem_singleton] at he
        rcases he with he | rfl
        · exact .inl he
        · exact .inr ⟨rfl, hread⟩
    · exact ⟨rfl, rfl, fun _ _ => rfl, fun _ he => .inl he⟩
  · simp only [Outcome.pure_def, Outcome.ok.injEq, Prod.mk.injEq] at h
    obtain ⟨-, rfl, rfl⟩ := h
    exact ⟨rfl, rfl, fun _ _ => rfl, fun _ he => .inl he⟩

/-- The loop over a window. -/
theorem retain_resend (hlink : link.Faithful) {st st' : SendState Buf D}
    (hbuilt : ∀ id p, window.get id = some p → p.packet.ordered = ordered ∧
      Packet.dataLen p.packet.messages ≤ MAX_PACKET_DATA_LEN)
    (h : window.retain (resendIfNeeded link env socket) st = .ok (window', st')) :
    Shrinks window window' ∧ st'.unreliable = st.unreliable ∧
      (∀ o, o ≠ ordered → st'.handed o = st.handed o) ∧
      (Handed link window (st.handed ordered) → Handed link window (st'.handed ordered)) := by
  obtain ⟨⟨hun, hother, hown⟩, hret⟩ := RingBuffer.retain_invariant
    (P := fun _ (s : SendState Buf D) => s.unreliable = st.unreliable ∧
      (∀ o, o ≠ ordered → s.handed o = st.handed o) ∧
      (Handed link window (st.handed ordered) → Handed link window (s.handed ordered)))
    (Q := fun _ (v : PendingPacket S) left => ∀ v', left = some v' → v'.packet = v.packet)
    ⟨rfl, fun _ _ => rfl, id⟩ (fun _ _ _ _ hP => hP)
    (fun done i v s keep v' s' hv hP hf => by
      obtain ⟨hord, hlen⟩ := hbuilt i v hv
      obtain ⟨hp, hun, hother, hown⟩ := resendIfNeeded_spec hlink hlen hf
      rw [hord] at hother hown
      refine ⟨⟨hun.trans hP.1, fun o ho => (hother o ho).trans (hP.2.1 o ho), fun h0 d hd => ?_⟩,
        fun w hw => ?_⟩
      · rcases hown d hd with hd | ⟨hid, hread⟩
        · exact hP.2.2 h0 d hd
        · exact ⟨v, hid ▸ hv, hread⟩
      · split at hw
        · obtain rfl := Option.some.inj hw
          exact hp
        · cases hw) h
  refine ⟨⟨hret.newest, fun id p' hp' => ?_⟩, hun, hother, hown⟩
  cases hg : window.get id with
  | none => rw [hret.absent id hg] at hp'; cases hp'
  | some p =>
    refine ⟨p, rfl, hret.visited id ?_ p hg p' hp'⟩
    exact RingBuffer.mem_window.mpr (RingBuffer.dist_of_get hg)

/-- The loop over the unreliable packets, of which those up to `place` are done. -/
theorem sendUnreliable_spec (hlink : link.Faithful) {packets : List (Packet S)} {place : Nat}
    {st st' : SendState Buf D} {error : Option ByteReprError}
    (hlen : ∀ p ∈ packets, Packet.dataLen p.messages ≤ MAX_PACKET_DATA_LEN)
    (h : sendUnreliable link env packets place st = .ok (st', error)) :
    (∀ o, st'.handed o = st.handed o) ∧ ∀ d ∈ st'.unreliable, d ∈ st.unreliable ∨
      ∃ i p, d.1 = place + i ∧ packets[i]? = some p ∧
        ∀ buf, (link.read d.2 buf).2 = .ok (some p) := by
  induction packets generalizing place st with
  | nil =>
    simp only [sendUnreliable, Outcome.pure_def, Outcome.ok.injEq, Prod.mk.injEq] at h
    obtain ⟨rfl, -⟩ := h
    exact ⟨fun _ => rfl, fun _ hd => .inl hd⟩
  | cons packet packets ih =>
    obtain ⟨buf', d, hw, hread⟩ := hlink packet (hlen packet (by simp)) st.buf
    simp only [sendUnreliable, hw] at h
    obtain ⟨hsame, hun⟩ := ih (fun p hp => hlen p (by simp [hp])) h
    refine ⟨fun o => (hsame o).trans ?_, fun e he => ?_⟩
    · split <;> rfl
    · rcases hun e he with he | ⟨i, p, hi, hp, hr⟩
      · split at he
        · rcases List.mem_append.mp he with he | he
          · exact .inl he
          · rw [List.mem_singleton.mp he]
            exact .inr ⟨0, packet, rfl, rfl, hread⟩
        · exact .inl he
      · exact .inr ⟨i + 1, p, by omega, by simpa using hp, hr⟩

end Hand

section Sent

open InnerUdpCommunicator

variable {link : Link S Buf D} {env : SendEnv S} {socket : UdpCommunicatorSocket Buf}

omit [ByteRepr S] in
theorem sendPackets_eq_ok {com com' : InnerUdpCommunicator S R} {st : SendState Buf D}
    {error : Option ByteReprError} (h : com.sendPackets link env socket = .ok (com', st, error)) :
    ∃ u st1 o st2 lastSend,
      com.reliableSendPackets.retain (resendIfNeeded link env socket)
        { buf := socket.dataBuffer } = .ok (u, st1) ∧
      com.reliableOrderedSendPackets.retain (resendIfNeeded link env socket) st1 = .ok (o, st2) ∧
      sendUnreliable link env com.unreliableSendPackets 0 st2 = .ok (st, error) ∧
      com' = { com with
        reliableSendPackets := u
        reliableOrderedSendPackets := o
        unreliableSendPackets := []
        lastSend } := by
  simp only [sendPackets, Outcome.bind_eq_ok] at h
  obtain ⟨⟨u, st1⟩, hu, ⟨o, st2⟩, ho, ⟨st3, e⟩, hr, h⟩ := h
  cases e with
  | none =>
    simp only [Outcome.pure_def, Outcome.ok.injEq, Prod.mk.injEq] at h
    obtain ⟨rfl, rfl, rfl⟩ := h
    refine ⟨u, st1, o, st2, if st3.anySend then env.now else com.lastSend, hu, ho, hr, ?_⟩
    split <;> rfl
  | some e =>
    simp only [Outcome.pure_def, Outcome.ok.injEq, Prod.mk.injEq] at h
    obtain ⟨rfl, rfl, rfl⟩ := h
    exact ⟨u, st1, o, st2, com.lastSend, hu, ho, hr, rfl⟩

/-- The windows after `send_packets`, and where the datagrams come from. -/
structure Hands (link : Link S Buf D) (com com' : InnerUdpCommunicator S R)
    (st : SendState Buf D) : Prop where
  shrinks : ∀ ordered, Shrinks (com.sendWindow ordered) (com'.sendWindow ordered)
  handed : ∀ ordered, Handed link (com.sendWindow ordered) (st.handed ordered)
  unreliable : ∀ d ∈ st.unreliable, ∃ p, com.unreliableSendPackets[d.1]? = some p ∧
    ∀ buf, (link.read d.2 buf).2 = .ok (some p)
  rest : ∃ lastSend, com' = { com with
    reliableSendPackets := com'.reliableSendPackets
    reliableOrderedSendPackets := com'.reliableOrderedSendPackets
    unreliableSendPackets := []
    lastSend }

theorem SendInv.sendable {ordered : Bool} {window : RingBuffer (PendingPacket S) 32}
    {log : List (Built S)} {queue wrote : List S} (h : SendInv ordered window log queue wrote) :
    ∀ id p, window.get id = some p → p.packet.ordered = ordered ∧
      Packet.dataLen p.packet.messages ≤ MAX_PACKET_DATA_LEN := by
  intro id p hp
  obtain ⟨k, b, -, hb, e, -⟩ := h.pending id p hp
  obtain ⟨-, hord, -, hlen⟩ := h.built k b hb
  rw [e] at hord hlen
  exact ⟨hord, hlen⟩

/-- Of packets that fit, `send_packets` hands over what is read as them. -/
theorem hands_of_fits {com com' : InnerUdpCommunicator S R} (hlink : link.Faithful)
    (hsend : ∀ ordered id p, (com.sendWindow ordered).get id = some p →
      p.packet.ordered = ordered ∧ Packet.dataLen p.packet.messages ≤ MAX_PACKET_DATA_LEN)
    (hwait : ∀ p ∈ com.unreliableSendPackets, Packet.dataLen p.messages ≤ MAX_PACKET_DATA_LEN)
    {st : SendState Buf D} {error : Option ByteReprError}
    (hs : com.sendPackets link env socket = .ok (com', st, error)) : Hands link com com' st := by
  obtain ⟨u, st1, o, st2, lastSend, hu, ho, hr, rfl⟩ := sendPackets_eq_ok hs
  obtain ⟨hsu, hun1, hother1, hown1⟩ := retain_resend hlink (hsend false) hu
  obtain ⟨hso, hun2, hother2, hown2⟩ := retain_resend hlink (hsend true) ho
  obtain ⟨hsame, hun3⟩ := sendUnreliable_spec hlink hwait hr
  refine ⟨fun ordered => ?_, fun ordered => ?_, fun d hd => ?_, lastSend, rfl⟩
  · cases ordered
    · exact hsu
    · exact hso
  · rw [hsame]
    cases ordered
    · rw [hother2 false (by decide)]
      exact hown1 fun d hd => nomatch hd
    · refine hown2 ?_
      rw [hother1 true (by decide)]
      exact fun d hd => nomatch hd
  · rcases hun3 d hd with hd | ⟨i, p, hi, hp, hread⟩
    · rw [hun2, hun1] at hd
      cases hd
    · rw [Nat.zero_add] at hi
      exact ⟨p, hi ▸ hp, hread⟩

theorem Endpoint.Inv.hands {x : Endpoint S R Buf} (h : x.Inv) (hlink : link.Faithful)
    {com' : InnerUdpCommunicator S R} {st : SendState Buf D} {error : Option ByteReprError}
    (hs : x.com.sendPackets link env socket = .ok (com', st, error)) :
    Hands link x.com com' st := by
  refine hands_of_fits hlink (fun ordered => (h.send ordered).sendable) (fun p hp => ?_) hs
  obtain ⟨before, hbefore⟩ := h.waiting
  have hmem : p ∈ x.unreliableLog.map Built.packet := by
    rw [hbefore]
    exact List.mem_append_right _ hp
  obtain ⟨b, hb, rfl⟩ := List.mem_map.mp hmem
  exact (h.unreliable b hb).2

variable {x : Endpoint S R Buf}

theorem Endpoint.Inv.indexOf_seq (h : x.Inv) {ordered : Bool} {k : Nat}
    (hk : k < (x.log ordered).length) (hn : (x.log ordered).length ≤ k + 32) :
    x.indexOf ordered (seq k) = k := by
  rw [Endpoint.indexOf, (h.send ordered).newest, dist_seq]
  omega

/-- A number of the window names its packet. -/
theorem Endpoint.Inv.indexOf (h : x.Inv) {ordered : Bool} {id : UInt16} {p : PendingPacket S}
    (hp : (x.com.sendWindow ordered).get id = some p) :
    x.indexOf ordered id ∈ x.pending ordered ∧
      ∃ b, (x.log ordered)[x.indexOf ordered id]? = some b ∧ b.packet = p.packet := by
  obtain ⟨k, b, rfl, hb, e, hn⟩ := (h.send ordered).pending id p hp
  have hk : k < (x.log ordered).length := (List.getElem?_eq_some_iff.mp hb).1
  rw [h.indexOf_seq hk hn]
  exact ⟨mem_pendingIn.mpr ⟨hk, hn, by rw [hp]; rfl⟩, b, hb, e⟩

/-- The waiting packets are the last ones of the log. -/
theorem Endpoint.Inv.getElem?_waiting (h : x.Inv) {i : Nat} {p : Packet S}
    (hp : x.com.unreliableSendPackets[i]? = some p) :
    x.Outgoing .unreliable
      (x.unreliableLog.length - x.com.unreliableSendPackets.length + i) ∧
      ∃ b, x.unreliableLog[x.unreliableLog.length - x.com.unreliableSendPackets.length + i]? =
        some b ∧ b.packet = p := by
  obtain ⟨before, hbefore⟩ := h.waiting
  have hlen := congrArg List.length hbefore
  rw [List.length_map, List.length_append] at hlen
  have hi := (List.getElem?_eq_some_iff.mp hp).1
  have hget : (x.unreliableLog.map Built.packet)[before.length + i]? = some p := by
    rw [hbefore, List.getElem?_append_right (Nat.le_add_right _ _), Nat.add_sub_cancel_left]
    exact hp
  rw [List.getElem?_map, Option.map_eq_some_iff] at hget
  have e : x.unreliableLog.length - x.com.unreliableSendPackets.length = before.length := by omega
  rw [e]
  exact ⟨⟨by omega, by omega⟩, hget⟩

/-- The datagrams handed over are those of packets that wait to be. -/
theorem Hands.outgoing {com' : InnerUdpCommunicator S R} {st : SendState Buf D}
    (hh : Hands link x.com com' st) (h : x.Inv) :
    ∀ d ∈ x.datagrams st, x.Outgoing d.channel d.index ∧ Carries link x d := by
  intro d hd
  have hreliable : ∀ ordered, ∀ e ∈ st.handed ordered,
      x.Outgoing (.reliable ordered) (x.indexOf ordered e.1) ∧
        Carries link x ⟨e.2, .reliable ordered, x.indexOf ordered e.1⟩ := fun ordered e he => by
    obtain ⟨p, hp, hread⟩ := hh.handed ordered e he
    obtain ⟨hpending, b, hb, eq⟩ := h.indexOf hp
    exact ⟨hpending, b, hb, fun buf => (hread buf).trans (by rw [eq])⟩
  simp only [Endpoint.datagrams, List.mem_append, List.mem_map] at hd
  rcases hd with (⟨e, he, rfl⟩ | ⟨e, he, rfl⟩) | ⟨e, he, rfl⟩
  · exact hreliable false e he
  · exact hreliable true e he
  · obtain ⟨p, hp, hread⟩ := hh.unreliable e he
    obtain ⟨hout, b, hb, rfl⟩ := h.getElem?_waiting hp
    exact ⟨hout, b, hb, hread⟩

omit [ByteRepr S] in
/-- `send_packets` leaves the queues and takes every waiting packet. -/
theorem Hands.frame {com com' : InnerUdpCommunicator S R} {st : SendState Buf D}
    (h : Hands link com com' st) : (∀ ordered, com'.sendQueue ordered = com.sendQueue ordered) ∧
      com'.unreliableSendQueue = com.unreliableSendQueue ∧ com'.unreliableSendPackets = [] := by
  obtain ⟨lastSend, hrest⟩ := h.rest
  rw [hrest]
  exact ⟨Bool.forall_bool.mpr ⟨rfl, rfl⟩, rfl, rfl⟩

omit [ByteRepr S] in
/-- If nothing is given up, nothing is gone. -/
theorem gone_of_sent {com' : InnerUdpCommunicator S R} {buf : Buf}
    (hg : (x.sent com' buf).givenUp = []) : x.givenUp = [] ∧ ∀ ordered,
      gone (x.com.sendWindow ordered) (com'.sendWindow ordered) (x.log ordered).length = [] := by
  have hg : x.givenUp ++
    (gone x.com.reliableSendPackets com'.reliableSendPackets x.reliableLog.length).map
      (false, ·) ++
    (gone x.com.reliableOrderedSendPackets com'.reliableOrderedSendPackets
      x.orderedLog.length).map (true, ·) = [] := hg
  simp only [List.append_eq_nil_iff, List.map_eq_nil_iff] at hg
  exact ⟨hg.1.1, Bool.forall_bool.mpr ⟨hg.1.2, hg.2⟩⟩

theorem Hands.sends {com' : InnerUdpCommunicator S R} {st : SendState Buf D} {buf : Buf}
    (hh : Hands link x.com com' st) (h : x.Inv) :
    Sends link x (x.sent com' buf) (x.datagrams st) := by
  obtain ⟨hqueue, -, hwait⟩ := hh.frame
  obtain ⟨lastSend, hrest⟩ := hh.rest
  have hrecv : (x.sent com' buf).receiver = x.receiver := by
    generalize com'.reliableSendPackets = u, com'.reliableOrderedSendPackets = o at hrest
    subst hrest; rfl
  refine ⟨⟨fun ordered => ?_, hrecv ▸ h.receiver, h.acks, ⟨x.unreliableLog.map Built.packet, ?_⟩,
    h.unreliable⟩, hrecv, fun accepted => ⟨fun _ => List.prefix_refl _, fun ordered k hk => ?_,
    fun _ hk => .inl hk, fun hg => ?_⟩, fun d hd => (hh.outgoing h d hd).2⟩
  · show SendInv ordered (com'.sendWindow ordered) (x.log ordered) (com'.sendQueue ordered) _
    rw [hqueue]
    exact (h.send ordered).shrink (hh.shrinks ordered)
  · show _ = _ ++ com'.unreliableSendPackets
    rw [hwait, List.append_nil]; rfl
  · exact .inl ((hh.shrinks ordered).mem_pendingIn hk)
  · obtain ⟨hg, hgone⟩ := gone_of_sent hg
    refine ⟨hg, fun ordered hv => hv.settle ((hh.shrinks ordered).settle fun k hk => ?_)⟩
    rw [hgone] at hk
    cases hk

end Sent

theorem Sends.trans {link : Link S Buf D} {x y z : Endpoint S R Buf} {out : List (Datagram D)}
    (h1 : Sends link x y []) (h2 : Sends link y z out) : Sends link x z out where
  inv := h2.inv
  receiver := h2.receiver.trans h1.receiver
  step accepted := (h1.step accepted).trans (h2.step accepted)
  out := h2.out

theorem Endpoint.send_eq_some {link : Link S Buf D} {x x' : Endpoint S R Buf} {env : SendEnv S}
    {out : List (Datagram D)} : x.send link env = some (x', out) ↔ ∃ com packets com' st error,
      x.com.beginSend env.now x.socket = .ok (com, packets) ∧
      com.sendPackets link env x.socket = .ok (com', st, error) ∧
      x' = (x.build com packets).sent com' st.buf ∧ out = (x.build com packets).datagrams st := by
  unfold Endpoint.send
  constructor
  · intro h
    split at h
    · rename_i com packets hb
      split at h
      · rename_i com' st error hp
        simp only [Option.some.injEq, Prod.mk.injEq] at h
        exact ⟨com, packets, com', st, error, hb, hp, h.1.symm, h.2.symm⟩
      · cases h
    · cases h
  · rintro ⟨com, packets, com', st, error, hb, hp, rfl, rfl⟩
    rw [hb]
    simp only [hp]

theorem Endpoint.Inv.sends {link : Link S Buf D} {x x' : Endpoint S R Buf} {env : SendEnv S}
    {out : List (Datagram D)} (h : x.Inv) (hlink : link.Faithful)
    (hs : x.send link env = some (x', out)) : Sends link x x' out := by
  obtain ⟨com, packets, com', st, error, hb, hp, rfl, rfl⟩ := Endpoint.send_eq_some.mp hs
  have hbuilt := (h.begins hb).sends link h
  have hh : Hands link (x.build com packets).com com' st := hbuilt.inv.hands hlink hp
  exact hbuilt.trans (hh.sends hbuilt.inv)

/-! ## The other steps of the sending half -/

section Steps

variable {link : Link S Buf D} {x x' : Endpoint S R Buf}

/-- A step that only touches the queues in front of the packets. -/
theorem Endpoint.Inv.queued (h : x.Inv)
    (hsend : ∀ ordered, SendInv ordered (x'.com.sendWindow ordered) (x'.log ordered)
      (x'.com.sendQueue ordered) (x'.wrote ordered))
    (hrecv : x'.receiver = x.receiver) (hlog : ∀ channel, x'.builtIn channel = x.builtIn channel)
    (hwindow : ∀ ordered, x'.com.sendWindow ordered = x.com.sendWindow ordered)
    (hwait : x'.com.unreliableSendPackets = x.com.unreliableSendPackets)
    (hacked : x'.orderedAcked = x.orderedAcked) (hgiven : x'.givenUp = x.givenUp) :
    Sends link x x' [] where
  inv :=
    { send := hsend
      receiver := hrecv ▸ h.receiver
      acks := fun channel b hb ordered => by
        have hacc : x'.accepted ordered = x.accepted ordered :=
          congrArg (Receiver.accepted · ordered) hrecv
        rw [hacc]
        exact h.acks channel b (hlog channel ▸ hb) ordered
      waiting := by
        have hl : x'.unreliableLog = x.unreliableLog := hlog .unreliable
        rw [hl, hwait]
        exact h.waiting
      unreliable := by
        have hl : x'.unreliableLog = x.unreliableLog := hlog .unreliable
        rw [hl]
        exact h.unreliable }
  receiver := hrecv
  step accepted := .refl hlog hwindow hacked hgiven
  out d hd := nomatch hd

theorem SendInv.write {ordered : Bool} {window : RingBuffer (PendingPacket S) 32}
    {log : List (Built S)} {queue wrote : List S} (h : SendInv ordered window log queue wrote)
    (m : S) : SendInv ordered window log (queue ++ [m]) (wrote ++ [m]) where
  newest := h.newest
  pending := h.pending
  built := h.built
  wrote := by rw [h.wrote, List.append_assoc]

theorem Endpoint.Inv.writeHeartbeat (h : x.Inv) :
    Sends link x (x.build x.com.writeHeartbeat []) [] := by
  refine Begins.sends link h ⟨fun ordered => ?_, ?_, rfl⟩
  · cases ordered
    · exact .start (h.send false)
    · exact .start (h.send true)
  · exact UnreliableInv.append ⟨[], by simp⟩ ⟨rfl, Nat.zero_le _, rfl⟩

theorem Endpoint.Inv.topUp (h : x.Inv) (retries : Nat) : Sends link x (x.topUp retries) [] := by
  have hs : ∀ ordered, Shrinks (x.com.sendWindow ordered)
      ((x.topUp retries).com.sendWindow ordered) := fun ordered => by
    rw [sendWindow_topUp]
    exact shrinks_mapItems _ _
  refine ⟨⟨fun ordered => ?_, h.receiver, h.acks, h.waiting, h.unreliable⟩, rfl, fun accepted =>
    ⟨fun _ => List.prefix_refl _, fun ordered k hk => .inl ((hs ordered).mem_pendingIn hk),
      fun _ hk => .inl hk, fun hg => ⟨hg, fun ordered hv => ?_⟩⟩, fun d hd => nomatch hd⟩
  · have := (h.send ordered).shrink (hs ordered)
    cases ordered <;> exact this
  · refine hv.settle ((hs ordered).settle fun k hk => ?_)
    -- every packet is still there
    obtain ⟨hp, hnone⟩ := mem_gone.mp hk
    rw [sendWindow_topUp, RingBuffer.get_mapItems, Option.map_eq_none_iff] at hnone
    have := (mem_pendingIn.mp hp).2.2
    rw [hnone] at this
    cases this

/-- Every step but a delivery is one of the sending half. -/
theorem Endpoint.Inv.step_sends {inn : Link R Buf D} {incoming out : List (Datagram D)}
    {event : Event S} (h : x.Inv) (hlink : link.Faithful)
    (hs : x.step link inn incoming event = some (x', out))
    (hdeliver : ∀ place now, event ≠ .deliver place now) : Sends link x x' out := by
  cases event with
  | write m =>
    cases hs
    exact h.queued (fun o => by cases o <;> exact h.send _) rfl (fun _ => rfl)
      (fun o => by cases o <;> rfl) rfl rfl rfl
  | writeReliable m =>
    cases hs
    refine h.queued (fun o => ?_) rfl (fun _ => rfl) (fun o => by cases o <;> rfl) rfl rfl rfl
    cases o
    · exact (h.send false).write m
    · exact h.send true
  | writeOrdered m =>
    cases hs
    refine h.queued (fun o => ?_) rfl (fun _ => rfl) (fun o => by cases o <;> rfl) rfl rfl rfl
    cases o
    · exact h.send false
    · exact (h.send true).write m
  | writeHeartbeat =>
    cases hs
    exact h.writeHeartbeat
  | read =>
    cases hs
    refine h.queued (fun o => by cases o <;> exact h.send _) ?_ (fun _ => rfl)
      (fun o => by cases o <;> rfl) rfl rfl rfl
    have hput : (x.readUnordered ++ x.com.read.1.toList) ++ x.com.unorderedRecvQueue.tail =
        x.everPut := by
      unfold InnerUdpCommunicator.read Endpoint.everPut
      cases x.com.unorderedRecvQueue <;> simp
    exact congrArg (fun l => { x.receiver with everPut := l }) hput
  | readOrdered =>
    cases hs
    refine h.queued (fun o => by cases o <;> exact h.send _) ?_ (fun _ => rfl)
      (fun o => by cases o <;> rfl) rfl rfl rfl
    have hput : (x.readOrdered ++ x.com.readOrdered.1.toList) ++ x.com.orderedRecvQueue.tail =
        x.everPutOrdered := by
      unfold InnerUdpCommunicator.readOrdered Endpoint.everPutOrdered
      cases x.com.orderedRecvQueue <;> simp
    exact congrArg (fun l => { x.receiver with everPutOrdered := l }) hput
  | send env => exact h.sends hlink hs
  | deliver place now => exact absurd rfl (hdeliver place now)
  | topUp retries =>
    cases hs
    exact h.topUp retries

end Steps

end MiniUdp
