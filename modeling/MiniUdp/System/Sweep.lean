import MiniUdp.System.Returns
import MiniUdp.System.Deadlock
import Mathlib.Data.FinEnum
import Mathlib.Data.Finite.Prod
import Mathlib.Data.Set.Finite.Lattice
import Mathlib.Data.Int.Order.Basic

/-!
# One side speaks, the other listens

When every timer has run out and nothing is lost, a call of `send` hands over
every packet there is (`Speaks`). What arrives is accepted unless it was before,
and clears the windows of what it acknowledges (`Hears`).
-/

namespace MiniUdp

open Serial While InnerUdpCommunicator

variable {S R Buf D : Type}

/-! ## Every packet is handed over -/

section Hand

variable [ByteRepr S] {link : Link S Buf D} {env : SendEnv S}

/-- The loop over the unreliable packets reaches each of them. -/
theorem sendUnreliable_handed (hlink : link.Faithful) (haccepts : ∀ p, env.accepts p = true)
    {packets : List (Packet S)}
    (hlen : ∀ p ∈ packets, Packet.dataLen p.messages ≤ MAX_PACKET_DATA_LEN) {place : Nat}
    {st st' : SendState Buf D} {error : Option ByteReprError}
    (h : sendUnreliable link env packets place st = .ok (st', error)) :
    (∀ d ∈ st.unreliable, d ∈ st'.unreliable) ∧
      ∀ i < packets.length, ∃ d ∈ st'.unreliable, d.1 = place + i := by
  induction packets generalizing place st with
  | nil =>
    simp only [sendUnreliable, Outcome.pure_def, Outcome.ok.injEq, Prod.mk.injEq] at h
    obtain ⟨rfl, -⟩ := h
    exact ⟨fun _ hd => hd, fun i hi => absurd hi (Nat.not_lt_zero i)⟩
  | cons packet packets ih =>
    obtain ⟨buf', d, hw, -⟩ := hlink packet (hlen packet List.mem_cons_self) st.buf
    simp only [sendUnreliable, hw, haccepts, if_true] at h
    obtain ⟨hold, hnew⟩ := ih (fun p hp => hlen p (List.mem_cons_of_mem packet hp)) h
    refine ⟨fun e he => hold e (List.mem_append_left _ he), fun i hi => ?_⟩
    cases i with
    | zero => exact ⟨(place, d), hold _ (List.mem_append_right _ List.mem_cons_self), rfl⟩
    | succ i =>
      obtain ⟨e, he, hplace⟩ := hnew i (Nat.lt_of_succ_lt_succ hi)
      exact ⟨e, he, by omega⟩

omit [ByteRepr S] in
/-- There is a reading of the clock at which every timer has run out. -/
theorem exists_due (com : InnerUdpCommunicator S R) (socket : UdpCommunicatorSocket Buf) :
    ∃ late : Instant, ∀ env : SendEnv S, (∀ p, env.checked p = late) → ∀ ordered id p,
      (com.sendWindow ordered).get id = some p → resendDue env socket p = true := by
  let last : Bool × UInt16 → Instant := fun i =>
    (((com.sendWindow i.1).get i.2).map PendingPacket.lastSend).getD 0
  obtain ⟨bound, hbound⟩ := (Set.finite_range last).bddAbove
  refine ⟨bound + socket.reliableUnorderedResendInterval +
    socket.reliableOrderedResendInterval + 1, fun env hchecked ordered id p hp => ?_⟩
  have hle : p.lastSend ≤ bound := by
    refine hbound ⟨(ordered, id), ?_⟩
    show (((com.sendWindow ordered).get id).map PendingPacket.lastSend).getD 0 = p.lastSend
    rw [hp]
    rfl
  have hout : ∀ (bound last : Int) (a b : Nat), last ≤ bound →
      a < (bound + a + b + 1 - last).toNat ∧ b < (bound + a + b + 1 - last).toNat := by omega
  have hout := hout bound p.lastSend socket.reliableUnorderedResendInterval
    socket.reliableOrderedResendInterval hle
  simp only [resendDue, elapsed, hchecked, decide_eq_true_eq]
  split
  · exact hout.2
  · exact hout.1

/-- The clock reads `late` whenever a timer is looked at, and the socket takes everything. -/
def envLate (S : Type) (late : Instant) : SendEnv S where
  now := 0
  checked _ := late
  stamped _ := late
  accepts _ := true
  overflowChecks := true

variable {socket : UdpCommunicatorSocket Buf} {com com' : InnerUdpCommunicator S R}
  {st : SendState Buf D} {error : Option ByteReprError}

omit [ByteRepr S] in
/-- A packet that may be sent twice stays in its window, and its datagram is handed over. -/
theorem sendPackets_due (hlabel : com.Labelled) (haccepts : ∀ p, env.accepts p = true)
    (h : com.sendPackets link env socket = .ok (com', st, error)) {ordered : Bool} {id : UInt16}
    {p : PendingPacket S} (hp : (com.sendWindow ordered).get id = some p)
    (hdue : resendDue env socket p = true) (hretries : p.remainingRetries = 2) :
    ((com'.sendWindow ordered).get id).isSome = true ∧ ∃ d ∈ st.handed ordered, d.1 = id := by
  obtain ⟨hafter, hcount⟩ := sendPackets_slot hlabel h hp (haccepts _)
  rw [if_pos hdue] at hcount
  unfold AfterCheck at hafter
  rw [if_pos hdue, hretries] at hafter
  obtain ⟨n, hn, hleft⟩ := hafter
  obtain rfl : 1 = n := Outcome.ok.inj hn
  constructor
  · rw [hleft]
    rfl
  · have hpos : 0 < handedCount st ordered id := by omega
    obtain ⟨d, hd, hid⟩ := List.countP_pos_iff.mp hpos
    exact ⟨d, hd, eq_of_beq hid⟩

end Hand

/-! ## One side speaks -/

/-- `x` has built packets from its queues, and handed over every packet it had and built. -/
structure Speaks [ByteRepr S] (link : Link S Buf D) (x x' : Endpoint S R Buf)
    (out : List (Datagram D)) : Prop where
  sends : Sends link x x' out
  givenUp : x'.givenUp = x.givenUp
  unreliable : x'.com.unreliableSendQueue = []
  waiting : x'.com.unreliableSendPackets = []
  queue : ∀ ordered, x'.com.sendQueue ordered <:+ x.com.sendQueue ordered
  /-- With room in the window, a queue gets shorter. -/
  room : ∀ ordered, x.com.sendQueue ordered ≠ [] →
    (x.com.sendWindow ordered).pushWillOverride = false →
    (x'.com.sendQueue ordered).length < (x.com.sendQueue ordered).length
  stops : ∀ ordered, x'.com.sendQueue ordered ≠ [] →
    (x'.com.sendWindow ordered).pushWillOverride = true
  idle : ∀ ordered, x.com.sendQueue ordered = [] → x'.log ordered = x.log ordered
  fresh : ∀ channel k b, (x'.builtIn channel)[k]? = some b → (x.builtIn channel).length ≤ k →
    b.named = x.named ∧ b.packet.ack = PacketAck.new b.packet.ack.sequenceId
      x.com.reliableReceivedPackets x.com.reliableOrderedReceivedPackets
  recent : ∀ d ∈ out, x.Outgoing d.channel d.index ∨ (x.builtIn d.channel).length ≤ d.index
  near : ∀ d ∈ out, ∀ ordered, d.channel = .reliable ordered → d.index ∈ x'.pending ordered
  handed : ∀ channel k, (x.Outgoing channel k ∨ (x.builtIn channel).length ≤ k) →
    k < (x'.builtIn channel).length → ∃ d ∈ out, d.channel = channel ∧ d.index = k
  /-- It builds a packet if it can, or owes a heartbeat. -/
  builds : x.com.unreliableSendQueue ≠ [] ∨ x.com.heartbeatDue = true ∨
    (∃ ordered, x.com.sendQueue ordered ≠ [] ∧
      (x.com.sendWindow ordered).pushWillOverride = false) →
    ∃ channel, (x.builtIn channel).length < (x'.builtIn channel).length

section Speaks

variable [ByteRepr S] {link : Link S Buf D} {env : SendEnv S} {x : Endpoint S R Buf}
  {com com' : InnerUdpCommunicator S R} {packets : List (Packet S)}
  {st : SendState Buf D} {error : Option ByteReprError}

/-- Nothing is built from an empty queue. -/
theorem beginSend_idle {now : Instant} {socket : UdpCommunicatorSocket Buf}
    (h : com.beginSend now socket = .ok (com', packets)) {ordered : Bool}
    (hq : com.sendQueue ordered = []) : packets.filter (·.ordered == ordered) = [] := by
  obtain ⟨id, waiting, hprimed, -⟩ := com.primed_eq
  rw [beginSend_eq, flush_eq_ok, hprimed] at h
  obtain ⟨u, o, r, hu, ho, -, -, rfl⟩ := h
  have hU := flushMessages_spec now socket.maxReliableUnorderedRetries
    com.reliableReceivedPackets com.reliableOrderedReceivedPackets false com.reliableSendPackets
    com.reliableSendQueue
  have hO := flushMessages_spec now socket.maxReliableOrderedRetries
    com.reliableReceivedPackets com.reliableOrderedReceivedPackets true
    com.reliableOrderedSendPackets com.reliableOrderedSendQueue
  rw [hu] at hU
  rw [ho] at hO
  obtain ⟨_, ⟨⟩, hU⟩ := hU
  obtain ⟨_, ⟨⟩, hO⟩ := hO
  obtain ⟨eu, eo⟩ := filter_built hU.ordered_eq hO.ordered_eq
  cases ordered
  · have hu' := hu.symm.trans (flushMessages_closed fun hne => absurd hq hne)
    rw [eu, Outcome.ok.inj hu']
  · have ho' := ho.symm.trans (flushMessages_closed fun hne => absurd hq hne)
    rw [eo, Outcome.ok.inj ho']

/-- A heartbeat that is due is built. -/
theorem beginSend_heartbeat {now : Instant} {socket : UdpCommunicatorSocket Buf}
    (h : com.beginSend now socket = .ok (com', packets)) (hdue : com.heartbeatDue = true) :
    com.unreliableSendPackets.length < com'.unreliableSendPackets.length := by
  have hprimed :
      com.primed.unreliableSendPackets = com.unreliableSendPackets ++ [com.heartbeat] := by
    rw [primed, if_pos hdue]
    rfl
  rw [beginSend_eq, flush_eq_ok] at h
  obtain ⟨u, o, r, -, -, hr, rfl, -⟩ := h
  have hwaiting : UnreliableInv com.primed.reliableReceivedPackets
      com.primed.reliableOrderedReceivedPackets com.primed.unreliableSendPackets
      com.primed.unreliableSendPackets := ⟨[], by simp⟩
  obtain ⟨new, hnew, -⟩ := (flushUnreliable_inv hwaiting hr).1.built
  show _ < r.sendPackets.length
  rw [hnew, hprimed]
  simp

/-- A window that has lost nothing has room for at most 32 packets. -/
theorem view_length_le {accepted : List Nat} {ordered : Bool}
    (hb : Begins x com packets) (hv : (x.view ordered accepted).Inv 32) :
    ((x.build com packets).log ordered).length ≤ (x.log ordered).length + 32 := by
  have hv' := (hb.channel ordered).cover accepted hv
  rw [← log_build] at hv'
  exact hv'.next_le hv.accepted_lt

/-- What waited for an acknowledgement still does, and so does what is built. -/
theorem mem_pending_build (h : x.Inv) {now : Instant}
    (hb : x.com.beginSend now x.socket = .ok (com, packets)) {accepted : List Nat}
    {ordered : Bool} (hv : (x.view ordered accepted).Inv 32) {k : Nat}
    (hk : k ∈ x.pending ordered ∨ (x.log ordered).length ≤ k)
    (hlt : k < ((x.build com packets).log ordered).length) :
    k ∈ (x.build com packets).pending ordered := by
  have hbegins := h.begins hb
  rcases hk with hk | hk
  · obtain ⟨hlt', hn, hsome⟩ := mem_pendingIn.mp hk
    obtain ⟨p, hp⟩ := Option.isSome_iff_exists.mp hsome
    have hp' : (com.sendWindow ordered).get (seq k) = some p :=
      ((beginSend_flushed hb ordered).pending _ p).mpr (.inl hp)
    obtain ⟨i, b, e, hi, -, hn'⟩ := ((hbegins.inv h).send ordered).pending _ p hp'
    have hi := (List.getElem?_eq_some_iff.mp hi).1
    have hgrowth := view_length_le hbegins hv
    have e : k = i := index_eq e (by omega) (by omega)
    exact mem_pendingIn.mpr ⟨hlt, e ▸ hn', Option.isSome_iff_exists.mpr ⟨p, hp'⟩⟩
  · have hv' := (hbegins.channel ordered).cover accepted hv
    rw [← log_build] at hv'
    exact (hv'.cover k hlt).resolve_right fun ha =>
      absurd (hv.accepted_lt k ha) (Nat.not_lt.mpr hk)

/-- The datagrams of a call that hands everything over. -/
theorem Endpoint.Inv.mem_datagrams (hx : x.Inv)
    (hreliable : ∀ ordered id p, (x.com.sendWindow ordered).get id = some p →
      ∃ d ∈ st.handed ordered, d.1 = id)
    (hunreliable : ∀ i < x.com.unreliableSendPackets.length, ∃ d ∈ st.unreliable, d.1 = i)
    {channel : Channel} {k : Nat} (hk : x.Outgoing channel k) :
    ∃ d ∈ x.datagrams st, d.channel = channel ∧ d.index = k := by
  unfold Endpoint.datagrams
  cases channel with
  | unreliable =>
    obtain ⟨hlt, hle⟩ := hk
    obtain ⟨before, hbefore⟩ := hx.waiting
    have hlen := congrArg List.length hbefore
    rw [List.length_map, List.length_append] at hlen
    obtain ⟨d, hd, hplace⟩ := hunreliable
      (k - (x.unreliableLog.length - x.com.unreliableSendPackets.length)) (by omega)
    refine ⟨_, List.mem_append_right _ (List.mem_map_of_mem hd), rfl, ?_⟩
    show x.unreliableLog.length - x.com.unreliableSendPackets.length + d.1 = k
    omega
  | reliable ordered =>
    obtain ⟨hlt, hn, hsome⟩ := mem_pendingIn.mp hk
    obtain ⟨p, hp⟩ := Option.isSome_iff_exists.mp hsome
    obtain ⟨d, hd, hid⟩ := hreliable ordered _ p hp
    have hindex : x.indexOf ordered d.1 = k := hid ▸ hx.indexOf_seq hlt hn
    cases ordered
    · exact ⟨_, List.mem_append_left _ (List.mem_append_left _ (List.mem_map_of_mem hd)), rfl,
        hindex⟩
    · exact ⟨_, List.mem_append_left _ (List.mem_append_right _ (List.mem_map_of_mem hd)), rfl,
        hindex⟩

/-- The unreliable packets built are the ones that wait now and did not before. -/
theorem length_unreliableLog_build {now : Instant} {socket : UdpCommunicatorSocket Buf}
    (hb : x.com.beginSend now socket = .ok (com, packets)) :
    (x.build com packets).unreliableLog.length + x.com.unreliableSendPackets.length =
      x.unreliableLog.length + com.unreliableSendPackets.length := by
  obtain ⟨new, hnew, -⟩ := beginSend_unreliable hb
  show (x.unreliableLog ++ (com.unreliableSendPackets.drop _).map _).length + _ = _
  rw [hnew, List.drop_left, List.length_append, List.length_map, List.length_append]
  omega

/-- What was on the way out still is when packets are built, and so are these. -/
theorem outgoing_build (h : x.Inv) {now : Instant}
    (hb : x.com.beginSend now x.socket = .ok (com, packets)) {accepted : Bool → List Nat}
    (hv : ∀ ordered, (x.view ordered (accepted ordered)).Inv 32) {channel : Channel} {k : Nat}
    (hk : x.Outgoing channel k ∨ (x.builtIn channel).length ≤ k)
    (hlt : k < ((x.build com packets).builtIn channel).length) :
    (x.build com packets).Outgoing channel k := by
  cases channel with
  | unreliable =>
    have hlen := length_unreliableLog_build hb
    have hlt : k < (x.build com packets).unreliableLog.length := hlt
    refine ⟨hlt, ?_⟩
    show (x.build com packets).unreliableLog.length ≤ k + com.unreliableSendPackets.length
    rcases hk with ⟨-, hle⟩ | hk
    · omega
    · have hk : x.unreliableLog.length ≤ k := hk
      omega
  | reliable ordered => exact mem_pending_build h hb (hv ordered) hk hlt

/-- A packet is built when there is something to build one of, or a heartbeat is due. -/
theorem exists_built {now : Instant} (hb : x.com.beginSend now x.socket = .ok (com, packets))
    (hfits : ∀ ordered, ∀ m ∈ x.com.sendQueue ordered, fits m = true)
    (hbuilds : x.com.unreliableSendQueue ≠ [] ∨ x.com.heartbeatDue = true ∨
      ∃ ordered, x.com.sendQueue ordered ≠ [] ∧
        (x.com.sendWindow ordered).pushWillOverride = false) :
    ∃ channel, (x.builtIn channel).length < ((x.build com packets).builtIn channel).length := by
  have hlen := length_unreliableLog_build hb
  have hunreliable : x.com.unreliableSendPackets.length < com.unreliableSendPackets.length →
      x.unreliableLog.length < (x.build com packets).unreliableLog.length := by omega
  rcases hbuilds with hne | hheartbeat | ⟨ordered, hq, hroom⟩
  · refine ⟨.unreliable, hunreliable ?_⟩
    obtain ⟨new, hnew, hmessages, -⟩ := beginSend_unreliable hb
    have hpos : new ≠ [] := fun hnil => hne (by rw [hmessages, hnil]; rfl)
    rw [hnew, List.length_append]
    exact Nat.lt_add_of_pos_right (List.length_pos_iff.mpr hpos)
  · exact ⟨.unreliable, hunreliable (beginSend_heartbeat hb hheartbeat)⟩
  · refine ⟨.reliable ordered, ?_⟩
    show (x.log ordered).length < ((x.build com packets).log ordered).length
    have hbuilt := ((beginSend_flushed hb ordered).progress hq hroom (hfits ordered)).1
    rw [log_build, List.length_append, List.length_map]
    exact Nat.lt_add_of_pos_right (List.length_pos_iff.mpr hbuilt)

/-- Every unreliable packet that waits is handed over. -/
theorem Endpoint.Inv.unreliable_handed {y : Endpoint S R Buf} (hy : y.Inv) (hlink : link.Faithful)
    (haccepts : ∀ p, env.accepts p = true) {socket : UdpCommunicatorSocket Buf}
    (hp : y.com.sendPackets link env socket = .ok (com', st, error)) :
    ∀ i < y.com.unreliableSendPackets.length, ∃ d ∈ st.unreliable, d.1 = i := by
  intro i hi
  obtain ⟨u, st1, o, st2, lastSend, -, -, hr, -⟩ := sendPackets_eq_ok hp
  have hlen : ∀ p ∈ y.com.unreliableSendPackets,
      Packet.dataLen p.messages ≤ MAX_PACKET_DATA_LEN := by
    intro p hp
    obtain ⟨i, hi⟩ := List.mem_iff_getElem?.mp hp
    obtain ⟨-, b, hb', rfl⟩ := hy.getElem?_waiting hi
    exact (hy.unreliable b (List.mem_of_getElem? hb')).2
  obtain ⟨d, hd, hplace⟩ := (sendUnreliable_handed hlink haccepts hlen hr).2 i hi
  exact ⟨d, hd, hplace.trans (Nat.zero_add i)⟩

section Stays

variable (hstays : ∀ ordered id p, (com.sendWindow ordered).get id = some p →
  ((com'.sendWindow ordered).get id).isSome = true)

include hstays

omit [ByteRepr S] in
/-- Nothing is given up when every packet stays in its window. -/
theorem givenUp_sent (buf : Buf) :
    ((x.build com packets).sent com' buf).givenUp = x.givenUp := by
  have hgone : ∀ ordered n, gone (com.sendWindow ordered) (com'.sendWindow ordered) n = [] := by
    intro ordered n
    refine List.eq_nil_iff_forall_not_mem.mpr fun k hk => ?_
    obtain ⟨hk, hnone⟩ := mem_gone.mp hk
    obtain ⟨p, hp⟩ := Option.isSome_iff_exists.mp (mem_pendingIn.mp hk).2.2
    have hsome := hstays ordered _ p hp
    rw [hnone] at hsome
    cases hsome
  show x.givenUp ++ (gone (com.sendWindow false) (com'.sendWindow false) _).map _ ++
    (gone (com.sendWindow true) (com'.sendWindow true) _).map _ = x.givenUp
  rw [hgone, hgone, List.map_nil, List.map_nil, List.append_nil, List.append_nil]

omit [ByteRepr S] in
theorem pending_sent {buf : Buf} {ordered : Bool} {k : Nat}
    (hk : k ∈ (x.build com packets).pending ordered) :
    k ∈ ((x.build com packets).sent com' buf).pending ordered := by
  obtain ⟨hlt, hn, hsome⟩ := mem_pendingIn.mp hk
  obtain ⟨p, hp⟩ := Option.isSome_iff_exists.mp hsome
  exact mem_pendingIn.mpr ⟨hlt, hn, hstays ordered _ p hp⟩

omit [ByteRepr S] in
/-- A full window stays full. -/
theorem pushWillOverride_of_stays {ordered : Bool}
    (hnewest : (com'.sendWindow ordered).newest = (com.sendWindow ordered).newest)
    (hfull : (com.sendWindow ordered).pushWillOverride = true) :
    (com'.sendWindow ordered).pushWillOverride = true := by
  rw [RingBuffer.pushWillOverride_eq_get, RingBuffer.getNextIndex] at hfull ⊢
  obtain ⟨p, hp⟩ := Option.isSome_iff_exists.mp hfull
  rw [hnewest]
  exact hstays ordered _ p hp

end Stays

/-- A datagram of the call has a packet that was on the way out before, or one built now. -/
theorem Endpoint.Inv.outgoing_or_built (h : x.Inv) (link : Link S Buf D)
    (hb : x.com.beginSend env.now x.socket = .ok (com, packets))
    {channel : Channel} {k : Nat} (hk : (x.build com packets).Outgoing channel k) :
    x.Outgoing channel k ∨ (x.builtIn channel).length ≤ k := by
  cases channel with
  | unreliable =>
    have hlen := length_unreliableLog_build hb
    obtain ⟨hlt, hle⟩ := hk
    have hle : (x.build com packets).unreliableLog.length ≤
      k + com.unreliableSendPackets.length := hle
    by_cases hold : x.unreliableLog.length ≤ k
    · exact .inr hold
    · exact .inl ⟨by omega, by omega⟩
  | reliable ordered =>
    exact ((h.begins hb).sends link h).step (fun _ => []) |>.pending ordered k hk

/-- A call of `send` when every timer has run out and no packet is at its last retry. -/
theorem Endpoint.Inv.speaks_of_send (h : x.Inv) (hlink : link.Faithful)
    {accepted : Bool → List Nat} (hv : ∀ ordered, (x.view ordered (accepted ordered)).Inv 32)
    (hfits : ∀ ordered, ∀ m ∈ x.com.sendQueue ordered, fits m = true)
    (hretries : ∀ ordered id p, (com.sendWindow ordered).get id = some p → p.remainingRetries = 2)
    (haccepts : ∀ p, env.accepts p = true)
    (hdue : ∀ ordered id p, (com.sendWindow ordered).get id = some p →
      resendDue env x.socket p = true)
    (hb : x.com.beginSend env.now x.socket = .ok (com, packets))
    (hp : com.sendPackets link env x.socket = .ok (com', st, error)) :
    Speaks link x ((x.build com packets).sent com' st.buf)
      ((x.build com packets).datagrams st) := by
  have hbegins := h.begins hb
  have hbuilt := hbegins.inv h
  have hh : Hands link (x.build com packets).com com' st := hbuilt.hands hlink hp
  obtain ⟨hqueue, hunreliable, hwait⟩ := hh.frame
  obtain ⟨new, -, -, hempty, -⟩ := beginSend_unreliable hb
  have hlabel : com.Labelled := fun ordered id p hp => ((hbuilt.send ordered).sendable id p hp).1
  have hkeep : ∀ ordered id p, (com.sendWindow ordered).get id = some p →
      ((com'.sendWindow ordered).get id).isSome = true ∧ ∃ d ∈ st.handed ordered, d.1 = id :=
    fun ordered id p hget => sendPackets_due hlabel haccepts hp hget (hdue ordered id p hget)
      (hretries ordered id p hget)
  have hstays := fun ordered id p hget => (hkeep ordered id p hget).1
  refine
    { sends := h.sends hlink (Endpoint.send_eq_some.mpr ⟨_, _, _, _, _, hb, hp, rfl, rfl⟩)
      givenUp := givenUp_sent hstays st.buf
      unreliable := hunreliable.trans hempty
      waiting := hwait
      queue := fun ordered =>
        ⟨_, (hqueue ordered).symm ▸ (beginSend_flushed hb ordered).partition.symm⟩
      room := fun ordered hq hroom => ?_
      stops := fun ordered hq => pushWillOverride_of_stays hstays (hh.shrinks ordered).newest
        ((beginSend_flushed hb ordered).stops ((hqueue ordered).symm.trans_ne hq))
      idle := fun ordered hq => ?_
      fresh := fun channel k b hb' hk => hbegins.fresh_of_le hb' hk
      recent := fun d hd => h.outgoing_or_built link hb (hh.outgoing hbuilt d hd).1
      near := fun d hd ordered hch => ?_
      handed := fun channel k hk hlt => hbuilt.mem_datagrams
        (fun ordered id p hget => (hkeep ordered id p hget).2)
        (hbuilt.unreliable_handed hlink haccepts hp) (outgoing_build h hb hv hk hlt)
      builds := exists_built hb hfits }
  · have hq' : com'.sendQueue ordered = com.sendQueue ordered := hqueue ordered
    show (com'.sendQueue ordered).length < _
    rw [hq']
    exact ((beginSend_flushed hb ordered).progress hq hroom (hfits ordered)).2
  · show (x.build com packets).log ordered = x.log ordered
    rw [log_build, beginSend_idle hb hq, List.map_nil, List.append_nil]
  · have hout := (hh.outgoing hbuilt d hd).1
    rw [hch] at hout
    exact pending_sent hstays hout

omit [ByteRepr S] in
theorem pending_topUp (x : Endpoint S R Buf) (retries : Nat) (ordered : Bool) :
    (x.topUp retries).pending ordered = x.pending ordered := by
  unfold Endpoint.pending pendingIn
  have hlog : (x.topUp retries).log ordered = x.log ordered := rfl
  rw [hlog]
  refine List.filter_congr fun k _ => ?_
  rw [sendWindow_topUp, RingBuffer.get_mapItems, Option.isSome_map]

omit [ByteRepr S] in
theorem outgoing_topUp {retries : Nat} {channel : Channel} {k : Nat} :
    (x.topUp retries).Outgoing channel k ↔ x.Outgoing channel k := by
  cases channel with
  | unreliable => rfl
  | reliable ordered => exact iff_of_eq (congrArg (k ∈ ·) (pending_topUp x retries ordered))

theorem Speaks.of_topUp {x' : Endpoint S R Buf} {out : List (Datagram D)} {retries : Nat}
    (hx : x.Inv) (h : Speaks link (x.topUp retries) x' out) : Speaks link x x' out := by
  have hqueue : ∀ ordered, (x.topUp retries).com.sendQueue ordered = x.com.sendQueue ordered :=
    Bool.forall_bool.mpr ⟨rfl, rfl⟩
  have hroom : ∀ ordered, ((x.topUp retries).com.sendWindow ordered).pushWillOverride =
      (x.com.sendWindow ordered).pushWillOverride := by
    intro ordered
    rw [RingBuffer.pushWillOverride_eq_get, RingBuffer.pushWillOverride_eq_get, sendWindow_topUp,
      RingBuffer.get_mapItems, Option.isSome_map]
    rfl
  refine
    { sends := (hx.topUp retries).trans h.sends
      givenUp := h.givenUp
      unreliable := h.unreliable
      waiting := h.waiting
      queue := fun ordered => hqueue ordered ▸ h.queue ordered
      stops := h.stops
      room := fun ordered hq hr => hqueue ordered ▸ h.room ordered (hqueue ordered ▸ hq)
        ((hroom ordered).trans hr)
      idle := fun ordered hq => h.idle ordered ((hqueue ordered).trans hq)
      fresh := h.fresh
      recent := fun d hd => (h.recent d hd).imp outgoing_topUp.mp id
      near := h.near
      handed := fun channel k hk hlt => h.handed channel k (hk.imp outgoing_topUp.mpr id) hlt
      builds := fun hb => h.builds ?_ }
  refine hb.imp id (Or.imp id ?_)
  rintro ⟨ordered, hq, hr⟩
  exact ⟨ordered, fun hnil => hq ((hqueue ordered).symm.trans hnil), (hroom ordered).trans hr⟩

omit [ByteRepr S] in
theorem Endpoint.Inv.packetsFit [ByteRepr S] (h : x.Inv) : x.com.PacketsFit where
  unordered id p hp := ((h.send false).sendable id p hp).2
  ordered id p hp := ((h.send true).sendable id p hp).2
  unreliable p hp := by
    obtain ⟨i, hi⟩ := List.mem_iff_getElem?.mp hp
    obtain ⟨-, b, hb, rfl⟩ := h.getElem?_waiting hi
    exact (h.unreliable b (List.mem_of_getElem? hb)).2

/-- With its retry counters set anew and its timers run out, an endpoint can hand over all that
it has. -/
theorem Endpoint.Inv.speaks (h : x.Inv) (hlink : link.Faithful) {accepted : Bool → List Nat}
    (hv : ∀ ordered, (x.view ordered (accepted ordered)).Inv 32)
    (hfits : ∀ channel, ∀ m ∈ x.com.queueOf channel, fits m = true) :
    ∃ (env : SendEnv S) (x' : Endpoint S R Buf) (out : List (Datagram D)),
      (∀ p, env.accepts p = true) ∧ (x.topUp 2).send link env = some (x', out) ∧
      Speaks link x x' out := by
  have hz : (x.topUp 2).Inv := (Endpoint.Inv.topUp h 2 : Sends link x _ []).inv
  have hmax : ∀ ordered, (x.topUp 2).socket.maxRetries ordered = 2 :=
    Bool.forall_bool.mpr ⟨rfl, rfl⟩
  have hretries : ∀ ordered id p, ((x.topUp 2).com.sendWindow ordered).get id = some p →
      p.remainingRetries = 2 := by
    intro ordered id p hp
    rw [sendWindow_topUp, RingBuffer.get_mapItems, Option.map_eq_some_iff] at hp
    obtain ⟨q, -, rfl⟩ := hp
    rfl
  have hsupplied : (x.topUp 2).com.Supplied :=
    ⟨hfits, fun ordered id p hp => hretries ordered id p hp ▸ Nat.two_pos⟩
  have hview : ∀ ordered, ((x.topUp 2).view ordered (accepted ordered)).Inv 32 := by
    intro ordered
    have e : (x.topUp 2).view ordered (accepted ordered) = x.view ordered (accepted ordered) :=
      congrArg (fun pending => (⟨_, {k | k ∈ pending}, _⟩ : SlidingWindow))
        (pending_topUp x 2 ordered)
    rw [e]
    exact hv ordered
  obtain ⟨com, packets, hb⟩ :=
    beginSend_returns 0 (x.topUp 2).socket (hsupplied.queue .unreliable)
  obtain ⟨late, hlate⟩ := exists_due com (x.topUp 2).socket
  obtain ⟨com', built, st, hs⟩ := hsupplied.send_returns hlink hz.packetsFit (envLate S late)
    fun ordered => hmax ordered ▸ Nat.two_pos
  simp only [InnerUdpCommunicator.send, Outcome.bind_eq_ok] at hs
  obtain ⟨⟨com1, packets1⟩, hb1, ⟨com2, st2, error⟩, hp, -⟩ := hs
  obtain ⟨rfl, rfl⟩ := Prod.mk.inj (Outcome.ok.inj (hb.symm.trans hb1))
  refine ⟨envLate S late, _, _, fun _ => rfl,
    Endpoint.send_eq_some.mpr ⟨_, _, _, _, _, hb1, hp, rfl, rfl⟩, Speaks.of_topUp h
      (hz.speaks_of_send hlink hview (fun ordered => hsupplied.queue (.reliable ordered))
        (fun ordered id p hget => ?_) (fun _ => rfl) (hlate _ fun _ => rfl) hb1 hp)⟩
  rcases ((beginSend_flushed hb ordered).pending id p).mp hget with hget | ⟨_, _, -, -, rfl⟩
  · exact hretries ordered id p hget
  · exact hmax ordered

end Speaks

/-! ## One side listens -/

/-- `x` has taken in datagrams of `y`. -/
structure Hears (y : Endpoint R S Buf) (heard : List (Datagram D)) (x x' : Endpoint S R Buf) :
    Prop where
  log : ∀ channel, x'.builtIn channel = x.builtIn channel
  queue : ∀ ordered, x'.com.sendQueue ordered = x.com.sendQueue ordered
  unreliable : x'.com.unreliableSendQueue = x.com.unreliableSendQueue
  waiting : x'.com.unreliableSendPackets = x.com.unreliableSendPackets
  shrinks : ∀ ordered, Shrinks (x.com.sendWindow ordered) (x'.com.sendWindow ordered)
  givenUp : x'.givenUp = x.givenUp
  keeps : ∀ ordered, ∀ k ∈ x.accepted ordered, k ∈ x'.accepted ordered
  accepts : ∀ d ∈ heard, ∀ ordered, d.channel = .reliable ordered →
    d.index ∈ y.pending ordered → d.index ∈ x'.accepted ordered
  owes : x.com.receivedPacketDuplicate = true → x'.com.receivedPacketDuplicate = true
  /-- A packet that comes in again makes it owe an acknowledgement. -/
  again : ∀ d ∈ heard, ∀ ordered, d.channel = .reliable ordered → d.index ∈ x.accepted ordered →
    x'.com.receivedPacketDuplicate = true

namespace Hears

variable {y : Endpoint R S Buf} {x x' x'' : Endpoint S R Buf} {heard heard' : List (Datagram D)}

theorem refl (y : Endpoint R S Buf) (x : Endpoint S R Buf) : Hears y ([] : List (Datagram D)) x x
    where
  log _ := rfl
  queue _ := rfl
  unreliable := rfl
  waiting := rfl
  shrinks _ := .refl _
  givenUp := rfl
  keeps _ _ hk := hk
  accepts _ hd := absurd hd List.not_mem_nil
  owes h := h
  again _ hd := absurd hd List.not_mem_nil

theorem Shrinks.trans {w w' w'' : RingBuffer (PendingPacket S) 32} (h : Shrinks w w')
    (h' : Shrinks w' w'') : Shrinks w w'' where
  newest := h'.newest.trans h.newest
  pending id p'' hp := by
    obtain ⟨p', hp', e'⟩ := h'.pending id p'' hp
    obtain ⟨p, hp, e⟩ := h.pending id p' hp'
    exact ⟨p, hp, e'.trans e⟩

theorem append (h : Hears y heard x x') (h' : Hears y heard' x' x'') :
    Hears y (heard ++ heard') x x'' where
  log channel := (h'.log channel).trans (h.log channel)
  queue ordered := (h'.queue ordered).trans (h.queue ordered)
  unreliable := h'.unreliable.trans h.unreliable
  waiting := h'.waiting.trans h.waiting
  shrinks ordered := Shrinks.trans (h.shrinks ordered) (h'.shrinks ordered)
  givenUp := h'.givenUp.trans h.givenUp
  keeps ordered k hk := h'.keeps ordered k (h.keeps ordered k hk)
  accepts d hd ordered hch hk := by
    rcases List.mem_append.mp hd with hd | hd
    · exact h'.keeps ordered _ (h.accepts d hd ordered hch hk)
    · exact h'.accepts d hd ordered hch hk
  owes ho := h'.owes (h.owes ho)
  again d hd ordered hch hk := by
    rcases List.mem_append.mp hd with hd | hd
    · exact h'.owes (h.again d hd ordered hch hk)
    · exact h'.again d hd ordered hch (h.keeps ordered _ hk)

theorem subset (h : Hears y heard x x') (hsub : heard' ⊆ heard) : Hears y heard' x x' :=
  { h with
    accepts := fun d hd => h.accepts d (hsub hd)
    again := fun d hd => h.again d (hsub hd) }

end Hears

/-- `read_packet` sets the flag for a duplicate just when it drops a reliable packet. -/
theorem onPacket_duplicate (now : Instant) (com : InnerUdpCommunicator S R) (packet : Packet R) :
    (com.onPacket now packet).receivedPacketDuplicate =
      (com.receivedPacketDuplicate || packet.reliable && !com.accepts packet) := by
  cases hr : packet.reliable with
  | false =>
    rw [onPacket_unreliable now hr, acknowledge_eq]
    exact (Bool.or_false _).symm
  | true =>
    cases ha : com.accepts packet with
    | false =>
      rw [onPacket_dropped now hr ha]
      exact (Bool.or_true _).symm
    | true =>
      rw [onPacket_accepted now hr ha]
      refine Eq.trans ?_ (Bool.or_false _).symm
      cases ho : packet.ordered with
      | false =>
        rw [accept_unordered _ ho]
      | true =>
        rw [(accept_ordered_frame _ ho).eq]
        rfl

section Receive

variable {x : Endpoint S R Buf} {y : Endpoint R S Buf} {b : Built R} {k : Nat}

theorem accepted_receive_of_accepts (now : Instant) (buf : Buf) {packet : Packet R}
    (hr : packet.reliable = true) (h : x.com.accepts packet = true) :
    k ∈ (x.receive k packet now buf).accepted packet.ordered := by
  unfold Endpoint.accepted Endpoint.receive
  cases ho : packet.ordered <;> simp [hr, h]

theorem accepted_receive_of_mem (now : Instant) (buf : Buf) {packet : Packet R} {ordered : Bool}
    {i : Nat} (h : i ∈ x.accepted ordered) :
    i ∈ (x.receive k packet now buf).accepted ordered := by
  cases ordered <;> exact List.mem_append_left _ h

theorem shrinks_onPacket (now : Instant) (com : InnerUdpCommunicator S R) (packet : Packet R)
    (ordered : Bool) :
    Shrinks (com.sendWindow ordered) ((com.onPacket now packet).sendWindow ordered) := by
  rcases (onPacket_sendSide now com packet).1 with ⟨-, e⟩ | ⟨-, e⟩
  · rw [e]
    exact .refl _
  · rw [e]
    exact shrinks_takeAcked _ _ _

/-- A datagram that comes in in time. -/
theorem Endpoint.Inv.hears [ByteRepr S] [ByteRepr R] (hx : x.Inv) (hy : y.Inv) {link : Link R Buf D}
    {flight : List (Datagram D)} (hc : Cross link y x.receiver flight)
    (hcov : Covered y x.receiver) {d : Datagram D}
    (hb : (y.builtIn d.channel)[d.index]? = some b) (ht : Timely x.receiver d.channel d.index)
    (now : Instant) (buf : Buf) : Hears y [d] x (x.receive d.index b.packet now buf) := by
  obtain ⟨-, hqueue, hunreliable, hwait⟩ := onPacket_sendSide now x.com b.packet
  refine
    { log := fun channel => ?_
      queue := hqueue
      unreliable := hunreliable
      waiting := hwait
      shrinks := shrinks_onPacket now x.com b.packet
      givenUp := rfl
      keeps := fun ordered i hi => accepted_receive_of_mem now buf hi
      accepts := fun d' hd ordered hch hk => ?_
      owes := fun ho => ?_
      again := fun d' hd ordered hch hk => ?_ }
  · cases channel with
    | unreliable => rfl
    | reliable ordered => cases ordered <;> rfl
  · obtain rfl := List.mem_singleton.mp hd
    rw [hch] at hb
    obtain ⟨hr, ho, hid, -⟩ := (hy.send ordered).built d'.index b hb
    by_cases hnew : d'.index ∈ x.accepted ordered
    · exact accepted_receive_of_mem now buf hnew
    · obtain ⟨hlt, hn, -⟩ := mem_pendingIn.mp hk
      have htop : top (x.accepted ordered) ≤ (y.log ordered).length :=
        top_le (hc.accepted_lt ordered)
      have hnext : (y.log ordered).length ≤ top (x.accepted ordered) + 32 :=
        (hcov.view ordered).next_le fun k hk => lt_top hk
      have ha : x.com.accepts b.packet = true :=
        accepts_of_new hx.receiver ho hid hnew (by omega) (by omega)
      exact ho ▸ accepted_receive_of_accepts now buf hr ha
  · show (x.com.onPacket now b.packet).receivedPacketDuplicate = true
    rw [onPacket_duplicate, ho, Bool.true_or]
  · obtain rfl := List.mem_singleton.mp hd
    rw [hch] at hb ht
    obtain ⟨hr, ho, hid, -⟩ := (hy.send ordered).built d'.index b hb
    have ha : x.com.accepts b.packet = false := by
      by_contra hc
      refine (Timely.new_of_accepts (ho.symm ▸ ht) hx.receiver hid
        (Bool.of_not_eq_false hc)).1 ?_
      rw [ho]
      exact hk
    show (x.com.onPacket now b.packet).receivedPacketDuplicate = true
    rw [onPacket_duplicate, hr, ha, Bool.not_false, Bool.and_true, Bool.or_true]

end Receive

end MiniUdp
