import MiniUdp.System.Run
import MiniUdp.Communicator.Partition

/-!
# Any network

Nothing is assumed of the network here: a datagram may be late by any number of
packets. What comes out on one side is still made of whole packets that the
other side built in that channel from what was written there (`authentic`).
-/

namespace MiniUdp

open Serial While InnerUdpCommunicator

variable {S R Buf D : Type}

/-! ## What is written to a channel -/

def InnerUdpCommunicator.queueOf (com : InnerUdpCommunicator S R) : Channel → List S
  | .unreliable => com.unreliableSendQueue
  | .reliable ordered => com.sendQueue ordered

def Event.written (channel : Channel) : Event S → List S
  | .write m => if channel = .unreliable then [m] else []
  | .writeReliable m => if channel = .reliable false then [m] else []
  | .writeOrdered m => if channel = .reliable true then [m] else []
  | _ => []

/-- The messages of the packets that have been built in a channel. -/
def Endpoint.chunks (x : Endpoint S R Buf) (channel : Channel) : List (List S) :=
  (x.builtIn channel).map fun b => b.packet.messages

/-- The datagram is read as a packet of the record. -/
def Genuine (link : Link S Buf D) (x : Endpoint S R Buf) (d : Datagram D) : Prop :=
  ∃ b ∈ x.builtIn d.channel, ∀ buf, (link.read d.body buf).2 = .ok (some b.packet)

theorem Genuine.mono {link : Link S Buf D} {x x' : Endpoint S R Buf} {d : Datagram D}
    (h : Genuine link x d) (hlog : ∀ channel, x.builtIn channel <+: x'.builtIn channel) :
    Genuine link x' d := by
  obtain ⟨b, hb, hread⟩ := h
  exact ⟨b, (hlog _).subset hb, hread⟩

/-! ## The sending half -/

/-- What an endpoint has built and still holds of what was written to it. -/
structure Endpoint.Sender [ByteRepr S] (written : Channel → List S) (x : Endpoint S R Buf) :
    Prop where
  send : ∀ ordered, SendInv ordered (x.com.sendWindow ordered) (x.log ordered)
    (x.com.sendQueue ordered) (x.wrote ordered)
  waiting : ∀ p ∈ x.com.unreliableSendPackets, ∃ b ∈ x.unreliableLog, b.packet = p
  unreliable : ∀ b ∈ x.unreliableLog, b.packet.reliable = false ∧
    Packet.dataLen b.packet.messages ≤ MAX_PACKET_DATA_LEN
  written : ∀ channel, written channel = (x.chunks channel).flatten ++ x.com.queueOf channel

section Sender

variable [ByteRepr S] {x x' : Endpoint S R Buf} {written : Channel → List S}

theorem Endpoint.Sender.waiting_dataLen (h : x.Sender written) :
    ∀ p ∈ x.com.unreliableSendPackets, Packet.dataLen p.messages ≤ MAX_PACKET_DATA_LEN := by
  intro p hp
  obtain ⟨b, hb, rfl⟩ := h.waiting p hp
  exact (h.unreliable b hb).2

/-- The unreliable packets that the call of `send` builds; a heartbeat has no messages. -/
theorem beginSend_unreliable {com com' : InnerUdpCommunicator S R} {now : Instant}
    {socket : UdpCommunicatorSocket Buf} {packets : List (Packet S)}
    (h : com.beginSend now socket = .ok (com', packets)) : ∃ new,
      com'.unreliableSendPackets = com.unreliableSendPackets ++ new ∧
      com.unreliableSendQueue = new.flatMap Packet.messages ∧ com'.unreliableSendQueue = [] ∧
      ∀ p ∈ new, p.reliable = false ∧ Packet.dataLen p.messages ≤ MAX_PACKET_DATA_LEN := by
  obtain ⟨beat, hpackets, hqueue, hmessages, hbeat⟩ : ∃ beat,
      com.primed.unreliableSendPackets = com.unreliableSendPackets ++ beat ∧
      com.primed.unreliableSendQueue = com.unreliableSendQueue ∧
      beat.flatMap Packet.messages = [] ∧
      ∀ p ∈ beat, p.reliable = false ∧ Packet.dataLen p.messages ≤ MAX_PACKET_DATA_LEN := by
    by_cases hdue : com.heartbeatDue = true
    · refine ⟨[com.heartbeat], ?_, ?_, rfl, ?_⟩
      · rw [primed, if_pos hdue]; rfl
      · rw [primed, if_pos hdue]; rfl
      · intro p hp
        rw [List.mem_singleton.mp hp]
        exact ⟨rfl, Nat.zero_le _⟩
    · refine ⟨[], ?_, ?_, rfl, fun p hp => absurd hp List.not_mem_nil⟩
      · rw [primed, if_neg hdue, List.append_nil]
      · rw [primed, if_neg hdue]
  rw [beginSend_eq, flush_eq_ok] at h
  obtain ⟨u, o, r, -, -, hr, rfl, -⟩ := h
  unfold flushUnreliable at hr
  split at hr
  · rename_i st hrun
    obtain rfl := Outcome.ok.inj hr
    obtain ⟨⟨new, hnew⟩, hguard⟩ := runWhile_invariant (P := fun st => ∃ new,
        DrainedInto com.primed.reliableReceivedPackets com.primed.reliableOrderedReceivedPackets
          ⟨com.primed.unreliableSendPacketId, com.primed.unreliableSendPackets,
            com.primed.unreliableSendQueue⟩ new st)
      (fun st hst _ => by
        obtain ⟨new, hst⟩ := hst
        obtain ⟨packet, hst⟩ := hst.body
        exact ⟨new ++ [packet], hst⟩) ⟨[], .start _⟩ hrun
    have hempty : st.sendQueue = [] := by simpa [unreliableGuard] using hguard
    have hpart := hnew.partition
    rw [hempty, List.append_nil] at hpart
    refine ⟨beat ++ new, ?_, ?_, hempty, fun p hp => ?_⟩
    · show st.sendPackets = _
      rw [hnew.sendPackets, hpackets, List.append_assoc]
    · rw [List.flatMap_append, hmessages, List.nil_append, ← hpart, hqueue]
    · rcases List.mem_append.mp hp with hp | hp
      · exact hbeat p hp
      · obtain ⟨j, hj⟩ := List.mem_iff_getElem?.mp hp
        exact ⟨(hnew.header j p hj).2.1, Packed.dataLen_le hnew.packed p hp⟩
  · cases hr

/-- Unreliable packets are built, and the reliable channels are in order. -/
theorem Endpoint.Sender.build (h : x.Sender written) {com : InnerUdpCommunicator S R}
    {packets new : List (Packet S)}
    (hsend : ∀ ordered, SendInv ordered (com.sendWindow ordered)
      ((x.build com packets).log ordered) (com.sendQueue ordered) (x.wrote ordered))
    (hpackets : com.unreliableSendPackets = x.com.unreliableSendPackets ++ new)
    (hqueue : x.com.unreliableSendQueue = new.flatMap Packet.messages ++ com.unreliableSendQueue)
    (hnew : ∀ p ∈ new, p.reliable = false ∧ Packet.dataLen p.messages ≤ MAX_PACKET_DATA_LEN) :
    (x.build com packets).Sender written := by
  have hlog : (x.build com packets).unreliableLog =
      x.unreliableLog ++ new.map (Built.mk · x.named) := by
    show x.unreliableLog ++ (com.unreliableSendPackets.drop _).map _ = _
    rw [hpackets, List.drop_left]
  refine ⟨hsend, fun p hp => ?_, fun b hb => ?_, fun channel => ?_⟩
  · rw [hlog]
    have hp : p ∈ com.unreliableSendPackets := hp
    rw [hpackets] at hp
    rcases List.mem_append.mp hp with hp | hp
    · obtain ⟨b, hb, e⟩ := h.waiting p hp
      exact ⟨b, List.mem_append_left _ hb, e⟩
    · exact ⟨_, List.mem_append_right _ (List.mem_map_of_mem hp), rfl⟩
  · rw [hlog, List.mem_append, List.mem_map] at hb
    rcases hb with hb | ⟨p, hp, rfl⟩
    · exact h.unreliable b hb
    · exact hnew p hp
  · cases channel with
    | unreliable =>
      have hw := h.written .unreliable
      unfold Endpoint.chunks Endpoint.builtIn queueOf at hw ⊢
      rw [hlog, hw, hqueue, List.map_append, List.flatten_append, List.append_assoc,
        List.flatMap_def, List.map_map]
      rfl
    | reliable ordered =>
      have hw := h.written (.reliable ordered)
      unfold Endpoint.chunks Endpoint.builtIn queueOf at hw ⊢
      rw [hw, ← List.flatMap_def, ← List.flatMap_def]
      exact (h.send ordered).wrote.symm.trans (hsend ordered).wrote

/-- What a step hands to the socket, and what it leaves. -/
structure SendsOnRecord (link : Link S Buf D) (written : Channel → List S)
    (x x' : Endpoint S R Buf) (out : List (Datagram D)) : Prop where
  sender : x'.Sender written
  log : ∀ channel, x.builtIn channel <+: x'.builtIn channel
  out : ∀ d ∈ out, Genuine link x' d

theorem Endpoint.Sender.send_step (h : x.Sender written) {link : Link S Buf D}
    (hlink : link.Faithful) {env : SendEnv S} {out : List (Datagram D)}
    (hs : x.send link env = some (x', out)) :
    SendsOnRecord link written x x' out ∧ x'.receiver = x.receiver := by
  obtain ⟨com, packets, com', st, error, hb, hp, rfl, rfl⟩ := Endpoint.send_eq_some.mp hs
  obtain ⟨new, hpackets, hqueue, hempty, hnew⟩ := beginSend_unreliable hb
  have hsend : ∀ ordered, SendInv ordered (com.sendWindow ordered)
      ((x.build com packets).log ordered) (com.sendQueue ordered) (x.wrote ordered) := by
    intro ordered
    rw [log_build]
    exact ((begins_of_send h.send hb).channel ordered).send
  have hy : (x.build com packets).Sender written :=
    h.build hsend hpackets (by rw [hempty, List.append_nil, hqueue]) hnew
  have hh : Hands link com com' st :=
    hands_of_fits hlink (fun ordered => (hsend ordered).sendable) hy.waiting_dataLen hp
  obtain ⟨hq, huq, hnone⟩ := hh.frame
  obtain ⟨lastSend, hrest⟩ := hh.rest
  have hrecv : ((x.build com packets).sent com' st.buf).receiver = x.receiver := by
    refine Eq.trans ?_ (begins_of_send h.send hb).receiver
    generalize com'.reliableSendPackets = u, com'.reliableOrderedSendPackets = o at hrest
    subst hrest
    rfl
  refine ⟨⟨⟨fun ordered => ?_, ?_, hy.unreliable, fun channel => ?_⟩, builtIn_build,
    fun d hd => ?_⟩, hrecv⟩
  · show SendInv ordered (com'.sendWindow ordered) _ (com'.sendQueue ordered) _
    rw [hq]
    exact (hsend ordered).shrink (hh.shrinks ordered)
  · show ∀ p ∈ com'.unreliableSendPackets, _
    rw [hnone]
    exact fun p hp => absurd hp List.not_mem_nil
  · refine (hy.written channel).trans (congrArg _ ?_)
    cases channel with
    | unreliable => exact huq.symm
    | reliable ordered => exact (hq ordered).symm
  · have hreliable : ∀ ordered, ∀ e ∈ st.handed ordered, ∃ b ∈ (x.build com packets).log ordered,
        ∀ buf, (link.read e.2 buf).2 = .ok (some b.packet) := fun ordered e he => by
      obtain ⟨p, hp, hread⟩ := hh.handed ordered e he
      obtain ⟨k, b, -, hb, hbp, -⟩ := (hsend ordered).pending _ p hp
      exact ⟨b, List.mem_of_getElem? hb, fun buf => (hread buf).trans (by rw [hbp])⟩
    simp only [Endpoint.datagrams, List.mem_append, List.mem_map] at hd
    rcases hd with (⟨e, he, rfl⟩ | ⟨e, he, rfl⟩) | ⟨e, he, rfl⟩
    · exact hreliable false e he
    · exact hreliable true e he
    · obtain ⟨p, hp, hread⟩ := hh.unreliable e he
      obtain ⟨b, hb, rfl⟩ := hy.waiting p (List.mem_of_getElem? hp)
      exact ⟨b, hb, hread⟩

theorem Endpoint.Sender.topUp (h : x.Sender written) (retries : Nat) :
    (x.topUp retries).Sender written := by
  refine ⟨fun ordered => ?_, h.waiting, h.unreliable, fun channel => ?_⟩
  · have hs : Shrinks (x.com.sendWindow ordered) ((x.topUp retries).com.sendWindow ordered) := by
      rw [sendWindow_topUp]
      exact shrinks_mapItems _ _
    have := (h.send ordered).shrink hs
    cases ordered <;> exact this
  · have := h.written channel
    cases channel with
    | unreliable => exact this
    | reliable ordered => cases ordered <;> exact this

/-- A message goes to the end of the queue of its channel. -/
theorem Endpoint.Sender.write (h : x.Sender written)
    (hsend : ∀ ordered, SendInv ordered (x'.com.sendWindow ordered) (x'.log ordered)
      (x'.com.sendQueue ordered) (x'.wrote ordered)) {new : Channel → List S}
    (hlog : ∀ channel, x'.builtIn channel = x.builtIn channel)
    (hwait : x'.com.unreliableSendPackets = x.com.unreliableSendPackets)
    (hqueue : ∀ channel, x'.com.queueOf channel = x.com.queueOf channel ++ new channel) :
    x'.Sender fun channel => written channel ++ new channel where
  send := hsend
  waiting := by
    have hl : x'.unreliableLog = x.unreliableLog := hlog .unreliable
    rw [hwait, hl]
    exact h.waiting
  unreliable := by
    have hl : x'.unreliableLog = x.unreliableLog := hlog .unreliable
    rw [hl]
    exact h.unreliable
  written channel := by
    unfold Endpoint.chunks
    rw [hlog, hqueue, ← List.append_assoc]
    exact congrArg (· ++ _) (h.written channel)

/-- Reading a packet only makes room in the windows. -/
theorem Endpoint.Sender.receive (h : x.Sender written) (index : Nat) (packet : Packet R)
    (now : Instant) (buf : Buf) : (x.receive index packet now buf).Sender written := by
  obtain ⟨hwindow, hqueue, huq, hwait⟩ := onPacket_sendSide now x.com packet
  have hshrinks : ∀ ordered, Shrinks (x.com.sendWindow ordered)
      ((x.com.onPacket now packet).sendWindow ordered) := by
    intro ordered
    rcases hwindow with ⟨-, hw⟩ | ⟨-, hw⟩
    · rw [hw]
      exact .refl _
    · rw [hw]
      exact shrinks_takeAcked _ _ _
  refine ⟨fun ordered => ?_, ?_, h.unreliable, fun channel => ?_⟩
  · show SendInv ordered ((x.com.onPacket now packet).sendWindow ordered) (x.log ordered)
      ((x.com.onPacket now packet).sendQueue ordered) (x.wrote ordered)
    rw [hqueue]
    exact (h.send ordered).shrink (hshrinks ordered)
  · show ∀ p ∈ (x.com.onPacket now packet).unreliableSendPackets, _
    rw [hwait]
    exact h.waiting
  · refine (h.written channel).trans (congrArg _ ?_)
    cases channel with
    | unreliable => exact huq.symm
    | reliable ordered => exact (hqueue ordered).symm

end Sender

/-! ## The receiving half -/

/-- What has been put out is made of packets of the other side. -/
structure Receiver.PutsOut (r : Receiver R) (y : Endpoint R S Buf) : Prop where
  unordered : ∃ chunks : List (List R), (∀ chunk ∈ chunks, chunk ∈ y.chunks .unreliable ∨
    chunk ∈ y.chunks (.reliable false)) ∧ r.everPut = chunks.flatten
  window : ∀ id p, r.orderedReceived.get id = some p →
    p.messages = [] ∨ p.messages ∈ y.chunks (.reliable true)
  ordered : ∃ chunks : List (List R), (∀ chunk ∈ chunks, chunk ∈ y.chunks (.reliable true)) ∧
    r.everPutOrdered = chunks.flatten

section Receiver

variable {x : Endpoint S R Buf} {y y' : Endpoint R S Buf} {r : Receiver R}

theorem Receiver.PutsOut.mono (h : r.PutsOut y)
    (hlog : ∀ channel, y.builtIn channel <+: y'.builtIn channel) : r.PutsOut y' := by
  have hsub : ∀ channel chunk, chunk ∈ y.chunks channel → chunk ∈ y'.chunks channel :=
    fun channel chunk hc => List.map_subset _ (hlog channel).subset hc
  obtain ⟨chunks, hall, hput⟩ := h.unordered
  obtain ⟨chunks', hall', hput'⟩ := h.ordered
  exact ⟨⟨chunks, fun c hc => (hall c hc).imp (hsub _ c) (hsub _ c), hput⟩,
    fun id p hp => (h.window id p hp).imp_right (hsub _ _),
    ⟨chunks', fun c hc => hsub _ c (hall' c hc), hput'⟩⟩

/-- One more packet is put out as it comes in. -/
theorem Receiver.PutsOut.put (h : r.PutsOut y) {chunk : List R}
    (hchunk : chunk ∈ y.chunks .unreliable ∨ chunk ∈ y.chunks (.reliable false)) {r' : Receiver R}
    (hput : r'.everPut = r.everPut ++ chunk) (hwindow : r'.orderedReceived = r.orderedReceived)
    (hordered : r'.everPutOrdered = r.everPutOrdered) : r'.PutsOut y := by
  obtain ⟨chunks, hall, hold⟩ := h.unordered
  refine ⟨⟨chunks ++ [chunk], fun c hc => ?_, ?_⟩, hwindow ▸ h.window, hordered ▸ h.ordered⟩
  · rcases List.mem_append.mp hc with hc | hc
    · exact hall c hc
    · rw [List.mem_singleton.mp hc]
      exact hchunk
  · rw [hput, hold, List.flatten_append, List.flatten_singleton]

/-- Whole packets of the window are put out. -/
theorem Receiver.PutsOut.release (h : r.PutsOut y) {window : RingBuffer (Packet R) 32}
    {head : UInt16} {accepted : List Nat} {released : Nat} {everPutOrdered : List R}
    {chunks : List (List R)}
    (hwindow : ∀ id p, window.get id = some p →
      p.messages = [] ∨ p.messages ∈ y.chunks (.reliable true))
    (hchunks : ∀ chunk ∈ chunks, chunk ∈ y.chunks (.reliable true))
    (hput : everPutOrdered = r.everPutOrdered ++ chunks.flatten) :
    Receiver.PutsOut { r with
      orderedReceived := window
      head
      orderedAccepted := accepted
      released
      everPutOrdered } y := by
  obtain ⟨old, hold, he⟩ := h.ordered
  refine ⟨h.unordered, hwindow, ⟨old ++ chunks, ?_, ?_⟩⟩
  · intro c hc
    rcases List.mem_append.mp hc with hc | hc
    · exact hold c hc
    · exact hchunks c hc
  · rw [List.flatten_append, ← he]
    exact hput

/-- The loop over the ordered packets puts out whole packets of the window. -/
theorem releaseOrdered_chunks {P : List R → Prop} (ids : List UInt16)
    (com : InnerUdpCommunicator S R)
    (h : ∀ id p, com.reliableOrderedReceivedPackets.get id = some p →
      p.messages = [] ∨ P p.messages) :
    (∀ id p, (releaseOrdered ids com).reliableOrderedReceivedPackets.get id = some p →
      p.messages = [] ∨ P p.messages) ∧
    ∃ chunks : List (List R), (∀ chunk ∈ chunks, P chunk) ∧
      (releaseOrdered ids com).orderedRecvQueue = com.orderedRecvQueue ++ chunks.flatten := by
  induction ids generalizing com with
  | nil => exact ⟨h, [], by simp, by simp [releaseOrdered]⟩
  | cons id ids ih =>
    unfold releaseOrdered
    split
    · split
      · rename_i packet hget
        obtain ⟨hwindow, chunks, hall, hqueue⟩ := ih { com with
          reliableOrderedReceivedPackets :=
            com.reliableOrderedReceivedPackets.set id (some { packet with messages := [] })
          orderedReadPacketHead := com.orderedReadPacketHead + 1
          orderedRecvQueue := com.orderedRecvQueue ++ packet.messages } (by
            intro j p hp
            rw [RingBuffer.get_set _ _ (RingBuffer.dist_of_get hget)] at hp
            split at hp
            · rw [← Option.some.inj hp]
              exact .inl rfl
            · exact h j p hp)
        refine ⟨hwindow, ?_⟩
        rcases h id packet hget with hnil | hP
        · refine ⟨chunks, hall, ?_⟩
          rw [hqueue, hnil, List.append_nil]
        · refine ⟨packet.messages :: chunks, List.forall_mem_cons.mpr ⟨hP, hall⟩, ?_⟩
          rw [hqueue, List.flatten_cons, List.append_assoc]
      · exact ih com h
    · split
      · exact ⟨h, [], by simp, by simp⟩
      · exact ih com h

/-- A packet of the other side comes in, whenever that is. -/
theorem Receiver.PutsOut.receive [ByteRepr R] {written : Channel → List R}
    (h : x.receiver.PutsOut y) (hy : y.Sender written) {channel : Channel} {b : Built R}
    (hb : b ∈ y.builtIn channel) (index : Nat) (now : Instant) (buf : Buf) :
    (x.receive index b.packet now buf).receiver.PutsOut y := by
  have hchunk : b.packet.messages ∈ y.chunks channel :=
    List.mem_map_of_mem (f := fun b : Built R => b.packet.messages) hb
  cases channel with
  | unreliable =>
    rw [receiver_unreliable x index now buf (hy.unreliable b hb).1]
    exact h.put (.inl hchunk) rfl rfl rfl
  | reliable ordered =>
    obtain ⟨k, hk⟩ := List.mem_iff_getElem?.mp hb
    obtain ⟨hr, ho, -, -⟩ := (hy.send ordered).built k b hk
    by_cases ha : x.com.accepts b.packet = true
    · cases ordered with
      | false =>
        rw [receiver_unordered x index now buf hr ha ho]
        exact h.put (.inr hchunk) rfl rfl rfl
      | true =>
        have hcom := onPacket_accepted now hr ha
        rw [accept_ordered _ ho] at hcom
        rw [receiver_ordered x index now buf hr ha ho hcom]
        have hstored : ∀ id p, (({ x.com with lastSeen := now } :
            InnerUdpCommunicator S R).stored b.packet).reliableOrderedReceivedPackets.get id =
              some p → p.messages = [] ∨ p.messages ∈ y.chunks (.reliable true) := by
          intro id p hp
          rw [ring_stored, RingBuffer.get_insert] at hp
          split at hp
          · rw [← Option.some.inj hp]
            exact .inr hchunk
          · split at hp
            · exact h.window id p hp
            · cases hp
        have hqueued : (({ x.com with lastSeen := now } : InnerUdpCommunicator S R).stored
            b.packet).orderedRecvQueue = x.com.orderedRecvQueue := rfl
        generalize ({ x.com with lastSeen := now } :
          InnerUdpCommunicator S R).stored b.packet = com at hstored hqueued ⊢
        obtain ⟨hwindow, new, hnew, hqueue⟩ := releaseOrdered_chunks
          com.reliableOrderedReceivedPackets.keys com hstored
        refine h.release hwindow hnew ?_
        rw [hqueue, hqueued, ← List.append_assoc]
        rfl
    · rw [receiver_dropped x index now buf hr (Bool.eq_false_iff.mpr ha)]
      exact h

end Receiver

/-! ## Steps -/

section Step

variable [ByteRepr S] [ByteRepr R] {out : Link S Buf D} {inn : Link R Buf D}
  {x x' : Endpoint S R Buf} {y : Endpoint R S Buf} {written : Channel → List S}
  {written' : Channel → List R} {incoming new : List (Datagram D)}

/-- What a step does to both halves of an endpoint. -/
structure StepsOnRecord (out : Link S Buf D) (written : Channel → List S)
    (x x' : Endpoint S R Buf) (y : Endpoint R S Buf) (new : List (Datagram D)) : Prop extends
    SendsOnRecord out written x x' new where
  receiver : x'.receiver.PutsOut y

omit [ByteRepr R] in
/-- A step that only touches the queues in front of the packets. -/
theorem Endpoint.Sender.queued (h : x.Sender written) (hput : x.receiver.PutsOut y)
    (hreceiver : x'.receiver = x.receiver)
    (hsend : ∀ ordered, SendInv ordered (x'.com.sendWindow ordered) (x'.log ordered)
      (x'.com.sendQueue ordered) (x'.wrote ordered)) {more : Channel → List S}
    (hlog : ∀ channel, x'.builtIn channel = x.builtIn channel)
    (hwait : x'.com.unreliableSendPackets = x.com.unreliableSendPackets)
    (hqueue : ∀ channel, x'.com.queueOf channel = x.com.queueOf channel ++ more channel) :
    StepsOnRecord out (fun channel => written channel ++ more channel) x x' y [] where
  sender := h.write hsend hlog hwait hqueue
  log channel := hlog channel ▸ List.prefix_refl _
  out _ hd := absurd hd List.not_mem_nil
  receiver := hreceiver ▸ hput

theorem Endpoint.Sender.deliver (h : x.Sender written) (hy : y.Sender written')
    (hput : x.receiver.PutsOut y) (hin : ∀ d ∈ incoming, Genuine inn y d) {place : Nat}
    {now : Instant} (hs : x.step out inn incoming (.deliver place now) = some (x', new)) :
    StepsOnRecord out written x x' y new := by
  simp only [Endpoint.step] at hs
  split at hs
  · rename_i d hd
    obtain ⟨b, hb, hread⟩ := hin d (List.mem_of_getElem? hd)
    have hread := hread x.socket.dataBuffer
    unfold Endpoint.deliver at hs
    generalize inn.read d.body x.socket.dataBuffer = result at hread hs
    obtain ⟨buf, res⟩ := result
    obtain rfl : res = .ok (some b.packet) := hread
    cases hs
    refine ⟨⟨h.receive d.index b.packet now buf, fun channel => ?_,
      fun d hd => absurd hd List.not_mem_nil⟩,
      hput.receive hy hb d.index now buf⟩
    cases channel with
    | unreliable => exact List.prefix_refl _
    | reliable ordered => cases ordered <;> exact List.prefix_refl _
  · cases hs

theorem Endpoint.Sender.step (h : x.Sender written) (hy : y.Sender written')
    (hput : x.receiver.PutsOut y) (hlink : out.Faithful)
    (hin : ∀ d ∈ incoming, Genuine inn y d) {event : Event S}
    (hs : x.step out inn incoming event = some (x', new)) :
    StepsOnRecord out (fun channel => written channel ++ event.written channel) x x' y new := by
  have hsilent : (fun channel => written channel ++ ([] : List S)) = written := by simp
  cases event with
  | write m =>
    cases hs
    refine h.queued hput ?_ (fun o => by cases o <;> exact h.send _) (fun _ => rfl) rfl
      fun channel => ?_
    · rfl
    · cases channel with
      | unreliable => rfl
      | reliable o => cases o <;> exact (List.append_nil _).symm
  | writeReliable m =>
    cases hs
    refine h.queued hput ?_ (fun o => ?_) (fun _ => rfl) rfl fun channel => ?_
    · rfl
    · cases o
      · exact (h.send false).write m
      · exact h.send true
    · cases channel with
      | unreliable => exact (List.append_nil _).symm
      | reliable o =>
        cases o
        · rfl
        · exact (List.append_nil _).symm
  | writeOrdered m =>
    cases hs
    refine h.queued hput ?_ (fun o => ?_) (fun _ => rfl) rfl fun channel => ?_
    · rfl
    · cases o
      · exact h.send false
      · exact (h.send true).write m
    · cases channel with
      | unreliable => exact (List.append_nil _).symm
      | reliable o =>
        cases o
        · exact (List.append_nil _).symm
        · rfl
  | writeHeartbeat =>
    cases hs
    refine ⟨⟨?_, builtIn_build, fun d hd => absurd hd List.not_mem_nil⟩, hput⟩
    have hpackets : x.com.writeHeartbeat.unreliableSendPackets =
        x.com.unreliableSendPackets ++ [x.com.heartbeat] := rfl
    refine hsilent.symm ▸ h.build (fun o => ?_) hpackets rfl fun p hp => ?_
    · rw [log_build, List.filter_nil, List.map_nil, List.append_nil]
      cases o <;> exact h.send _
    · rw [List.mem_singleton.mp hp]
      exact ⟨rfl, Nat.zero_le _⟩
  | read =>
    cases hs
    refine h.queued hput ?_ (fun o => by cases o <;> exact h.send _) (fun _ => rfl) rfl
      fun channel => ?_
    · have hsame : (x.readUnordered ++ x.com.read.1.toList) ++ x.com.unorderedRecvQueue.tail =
          x.everPut := by
        unfold InnerUdpCommunicator.read Endpoint.everPut
        cases x.com.unorderedRecvQueue <;> simp
      exact congrArg (fun l => { x.receiver with everPut := l }) hsame
    · cases channel with
      | unreliable => exact (List.append_nil _).symm
      | reliable o => cases o <;> exact (List.append_nil _).symm
  | readOrdered =>
    cases hs
    refine h.queued hput ?_ (fun o => by cases o <;> exact h.send _) (fun _ => rfl) rfl
      fun channel => ?_
    · have hsame : (x.readOrdered ++ x.com.readOrdered.1.toList) ++ x.com.orderedRecvQueue.tail =
          x.everPutOrdered := by
        unfold InnerUdpCommunicator.readOrdered Endpoint.everPutOrdered
        cases x.com.orderedRecvQueue <;> simp
      exact congrArg (fun l => { x.receiver with everPutOrdered := l }) hsame
    · cases channel with
      | unreliable => exact (List.append_nil _).symm
      | reliable o => cases o <;> exact (List.append_nil _).symm
  | send env =>
    obtain ⟨hsends, hrecv⟩ := h.send_step hlink hs
    exact ⟨hsilent.symm ▸ hsends, hrecv ▸ hput⟩
  | deliver place now => exact hsilent.symm ▸ h.deliver hy hput hin hs
  | topUp retries =>
    cases hs
    refine ⟨⟨hsilent.symm ▸ h.topUp retries, fun channel => ?_,
      fun d hd => absurd hd List.not_mem_nil⟩, hput⟩
    cases channel with
    | unreliable => exact List.prefix_refl _
    | reliable ordered => cases ordered <;> exact List.prefix_refl _

end Step

/-! ## Runs -/

/-- What a step writes to a channel of `a`, and to one of `b`. -/
def Action.writtenA (channel : Channel) : Action S R → List S
  | .atA event => event.written channel
  | .atB _ => []

def Action.writtenB (channel : Channel) : Action S R → List R
  | .atA _ => []
  | .atB event => event.written channel

namespace System

variable [ByteRepr S] [ByteRepr R] {la : Link S Buf D} {lb : Link R Buf D}
  {s t : System S R Buf D}

/-- Everything that is built, on the way, received or put out goes back to what was written. -/
structure OnRecord (la : Link S Buf D) (lb : Link R Buf D) (written : Channel → List S)
    (written' : Channel → List R) (s : System S R Buf D) : Prop where
  a : s.a.Sender written
  b : s.b.Sender written'
  ab : ∀ d ∈ s.ab, Genuine la s.a d
  ba : ∀ d ∈ s.ba, Genuine lb s.b d
  toA : s.a.receiver.PutsOut s.b
  toB : s.b.receiver.PutsOut s.a

variable {written : Channel → List S} {written' : Channel → List R}

theorem OnRecord.swap (h : OnRecord la lb written written' s) :
    OnRecord lb la written' written s.swap := ⟨h.b, h.a, h.ba, h.ab, h.toB, h.toA⟩

omit [ByteRepr R] in
theorem Sender.start (socket : UdpCommunicatorSocket Buf) (lastSeen lastSend : Instant) :
    (Endpoint.start socket lastSeen lastSend : Endpoint S R Buf).Sender fun _ => [] where
  send := (Endpoint.inv_start socket lastSeen lastSend).send
  waiting _ hp := absurd hp List.not_mem_nil
  unreliable _ hb := absurd hb List.not_mem_nil
  written channel := by
    cases channel with
    | unreliable => rfl
    | reliable ordered => cases ordered <;> rfl

omit [ByteRepr S] [ByteRepr R] in
theorem PutsOut.start (socket : UdpCommunicatorSocket Buf) (lastSeen lastSend : Instant)
    (y : Endpoint R S Buf) :
    (Endpoint.start socket lastSeen lastSend : Endpoint S R Buf).receiver.PutsOut y where
  unordered := ⟨[], by simp, rfl⟩
  window id p hp := by
    have hnone : (RingBuffer.new : RingBuffer (Packet R) 32).get id = none := RingBuffer.get_new id
    exact absurd (hnone.symm.trans hp) (by simp)
  ordered := ⟨[], by simp, rfl⟩

theorem Initial.onRecord (h : Initial s) : OnRecord la lb (fun _ => []) (fun _ => []) s := by
  obtain ⟨socketA, socketB, t1, t2, t3, t4⟩ := h
  exact ⟨Sender.start _ _ _, Sender.start _ _ _, fun _ hd => (absurd hd List.not_mem_nil),
    fun _ hd => (absurd hd List.not_mem_nil), PutsOut.start _ _ _ _, PutsOut.start _ _ _ _⟩

theorem OnRecord.stepA (h : OnRecord la lb written written' s) (hla : la.Faithful)
    {event : Event S} (hs : s.stepA la lb event = some t) :
    OnRecord la lb (fun channel => written channel ++ event.written channel) written' t := by
  unfold System.stepA at hs
  split at hs
  · rename_i a new hstep
    cases hs
    have hsteps := h.a.step h.b h.toA hla h.ba hstep
    refine ⟨hsteps.sender, h.b, fun d hd => ?_, h.ba, hsteps.receiver, h.toB.mono hsteps.log⟩
    rcases List.mem_append.mp hd with hd | hd
    · exact (h.ab d hd).mono hsteps.log
    · exact hsteps.out d hd
  · cases hs

theorem OnRecord.step (h : OnRecord la lb written written' s) (hla : la.Faithful)
    (hlb : lb.Faithful) {act : Action S R} (hs : s.step la lb act = some t) :
    OnRecord la lb (fun channel => written channel ++ act.writtenA channel)
      (fun channel => written' channel ++ act.writtenB channel) t := by
  cases act with
  | atA event =>
    simp only [Action.writtenA, Action.writtenB, List.append_nil]
    exact h.stepA hla hs
  | atB event =>
    simp only [Action.writtenA, Action.writtenB, List.append_nil]
    exact (h.swap.stepA hlb (stepA_of_stepB hs)).swap

theorem OnRecord.steps (h : OnRecord la lb written written' s) (hla : la.Faithful)
    (hlb : lb.Faithful) {acts : List (Action S R)} (hs : s.steps la lb acts = some t) :
    OnRecord la lb (fun channel => written channel ++ acts.flatMap (Action.writtenA channel))
      (fun channel => written' channel ++ acts.flatMap (Action.writtenB channel)) t := by
  induction acts generalizing s written written' with
  | nil =>
    cases hs
    simpa using h
  | cons act acts ih =>
    unfold System.steps at hs
    split at hs
    · rename_i s1 hs1
      have ht := ih (h.step hla hlb hs1) hs
      simpa only [List.flatMap_cons, List.append_assoc] using ht
    · cases hs

end System

end MiniUdp
