import MiniUdp.System.Run
import Mathlib.Logic.Relation

/-!
# Connections left alone

From some point on the application writes nothing and the network loses nothing
(`Quiet`). A connection `Drains` if it can then get rid of all its work. Each
side may wait for an acknowledgement that the other one only sends with a new
packet, for which it has no room (`Deadlocked`); such a connection never drains
(`Deadlocked.not_comesToRest`).
-/

namespace MiniUdp

open Serial While InnerUdpCommunicator

variable {S R Buf D : Type}

/-! ## Steps without writes -/

/-- What may happen when nothing is written any more and the socket takes everything. -/
def Event.Quiet : Event S → Prop
  | .send env => ∀ packet, env.accepts packet = true
  | .deliver _ _ | .topUp _ => True
  | _ => False

/-- A datagram that has arrived is not on the way any more. -/
def Event.arrived (event : Event S) (flight : List (Datagram D)) : List (Datagram D) :=
  match event with
  | .deliver place _ => flight.eraseIdx place
  | _ => flight

/-- Writes of messages that fit a packet; anything else may happen. -/
def Event.Small [ByteRepr S] : Event S → Prop
  | .write m | .writeReliable m | .writeOrdered m => fits m = true
  | _ => True

namespace System

section Quiet

variable [ByteRepr S] [ByteRepr R] (la : Link S Buf D) (lb : Link R Buf D)

def SmallWrites (_ : System S R Buf D) : Action S R → Prop
  | .atA event => event.Small
  | .atB event => event.Small

/-- A step without writes; every datagram handed to a socket arrives once. -/
inductive Quiet : System S R Buf D → System S R Buf D → Prop where
  | atA {s t} {event : Event S} : event.Quiet → s.stepA la lb event = some t →
      Quiet s { t with ba := event.arrived t.ba }
  | atB {s t} {event : Event R} : event.Quiet → s.stepB la lb event = some t →
      Quiet s { t with ab := event.arrived t.ab }

/-- No work is left on either side, nothing is on the way and nothing was given up. -/
structure Drained (s : System S R Buf D) : Prop where
  ab : s.ab = []
  ba : s.ba = []
  noGiveUp : NoGiveUp s
  a : s.a.com.hasWork = false
  b : s.b.com.hasWork = false

/-- `has_work` is false on both sides, and nothing was given up. -/
structure AtRest (s : System S R Buf D) : Prop where
  noGiveUp : NoGiveUp s
  a : s.a.com.hasWork = false
  b : s.b.com.hasWork = false

/-- The connection can get rid of all its work, even if everything on the way is lost. -/
def Drains (s : System S R Buf D) : Prop :=
  ∃ t, Relation.ReflTransGen (Quiet la lb) { s with ab := [], ba := [] } t ∧ Drained t

/-- Without further writes the connection can come to rest, and no datagram but those handed to a
socket meanwhile is needed for it. -/
def ComesToRest (s : System S R Buf D) : Prop :=
  ∃ t, Relation.ReflTransGen (Quiet la lb) { s with ab := [], ba := [] } t ∧ AtRest t

end Quiet

theorem Drained.atRest {s : System S R Buf D} (h : Drained s) : AtRest s := ⟨h.noGiveUp, h.a, h.b⟩

end System

/-! ## Deadlock -/

/-- The packets an endpoint will hand to the socket again, or for the first time. -/
def Endpoint.StillSends (x : Endpoint S R Buf) (packet : Packet S) : Prop :=
  packet ∈ x.com.unreliableSendPackets ∨
    ∃ ordered id pending, (x.com.sendWindow ordered).get id = some pending ∧
      pending.packet = packet

/-- The packet makes no room in the windows that hold up a queue: it is dropped, or it does not
acknowledge the packets that are in the way. -/
def Useless (x : Endpoint S R Buf) (packet : Packet R) : Prop :=
  (packet.reliable = true → x.com.accepts packet = true) →
    ∀ ordered, x.com.sendQueue ordered ≠ [] →
      packet.ack.names ordered ((x.com.sendWindow ordered).getNextIndex - 32) = false

/-- `x` builds no packet, and nothing that `y` still sends changes that. -/
structure Stuck (x : Endpoint S R Buf) (y : Endpoint R S Buf) : Prop where
  unreliable : x.com.unreliableSendQueue = []
  queued : ∃ ordered, x.com.sendQueue ordered ≠ []
  full : ∀ ordered, x.com.sendQueue ordered ≠ [] →
    (x.com.sendWindow ordered).pushWillOverride = true
  useless : ∀ packet, y.StillSends packet → Useless x packet

def System.Deadlocked (s : System S R Buf D) : Prop := Stuck s.a s.b ∧ Stuck s.b s.a

/-- What a step does to an endpoint that is stuck. -/
structure Stays (x x' : Endpoint S R Buf) : Prop where
  queue : ∀ ordered, x'.com.sendQueue ordered = x.com.sendQueue ordered
  unreliable : x'.com.unreliableSendQueue = x.com.unreliableSendQueue
  newest : ∀ ordered, (x'.com.sendWindow ordered).newest = (x.com.sendWindow ordered).newest
  full : ∀ ordered, x.com.sendQueue ordered ≠ [] →
    (x'.com.sendWindow ordered).pushWillOverride = true
  stillSends : ∀ packet, x'.StillSends packet → x.StillSends packet
  log : ∀ channel, x'.builtIn channel = x.builtIn channel

namespace Stays

variable {x x' : Endpoint S R Buf} {y : Endpoint R S Buf}

/-- What was useless stays so, unless it was dropped and is not any more. -/
theorem useless (h : Stays x x') {packet : Packet R} (hu : Useless x packet)
    (haccepts : packet.reliable = true → x'.com.accepts packet = true →
      x.com.accepts packet = true) : Useless x' packet := by
  intro ha ordered hq
  rw [h.queue] at hq
  have := hu (fun hr => haccepts hr (ha hr)) ordered hq
  rw [RingBuffer.getNextIndex] at this ⊢
  rwa [h.newest]

theorem stuck (h : Stays x x') (hs : Stuck x y) (haccepts : ∀ packet, y.StillSends packet →
    packet.reliable = true → x'.com.accepts packet = true → x.com.accepts packet = true) :
    Stuck x' y where
  unreliable := h.unreliable.trans hs.unreliable
  queued := by
    obtain ⟨ordered, hq⟩ := hs.queued
    exact ⟨ordered, h.queue ordered ▸ hq⟩
  full ordered hq := h.full ordered (h.queue ordered ▸ hq)
  useless packet hp := h.useless (hs.useless packet hp) (haccepts packet hp)

theorem stuck_other (h : Stays x x') (hs : Stuck y x) : Stuck y x' :=
  ⟨hs.unreliable, hs.queued, hs.full, fun packet hp =>
    hs.useless packet (h.stillSends packet hp)⟩

end Stays

section Closed

variable [ByteRepr S]

/-- A loop that may not begin leaves everything as it is. -/
theorem flushMessages_closed {now : Instant} {retries : Nat}
    {reliableReceived : RingBuffer Unit 32} {orderedReceived : RingBuffer (Packet R) 32}
    {ordered : Bool} {sendPackets : RingBuffer (PendingPacket S) 32} {sendQueue : List S}
    (h : sendQueue ≠ [] → sendPackets.pushWillOverride = true) :
    flushMessages now retries reliableReceived orderedReceived ordered sendPackets sendQueue =
      .ok { sendPackets, sendQueue } := by
  have hg : flushGuard { sendPackets, sendQueue } = false := by
    unfold flushGuard
    cases sendQueue with
    | nil => simp
    | cons m ms => simp [h (List.cons_ne_nil m ms)]
  unfold flushMessages runWhile
  rw [hg]
  rfl

theorem flushUnreliable_nil {reliableReceived : RingBuffer Unit 32}
    {orderedReceived : RingBuffer (Packet R) 32} {sendPacketId : UInt16}
    {sendPackets : List (Packet S)} : flushUnreliable reliableReceived orderedReceived
      ⟨sendPacketId, sendPackets, []⟩ = .ok ⟨sendPacketId, sendPackets, []⟩ := rfl

theorem flush_closed {com : InnerUdpCommunicator S R} (now : Instant)
    (socket : UdpCommunicatorSocket Buf) (hu : com.unreliableSendQueue = [])
    (h : ∀ ordered, com.sendQueue ordered ≠ [] →
      (com.sendWindow ordered).pushWillOverride = true) :
    com.flush now socket = .ok (com, []) := by
  have hu' : flushMessages now socket.maxReliableUnorderedRetries com.reliableReceivedPackets
      com.reliableOrderedReceivedPackets false com.reliableSendPackets com.reliableSendQueue =
      .ok ⟨com.reliableSendPackets, com.reliableSendQueue, []⟩ := flushMessages_closed (h false)
  have ho' : flushMessages now socket.maxReliableOrderedRetries com.reliableReceivedPackets
      com.reliableOrderedReceivedPackets true com.reliableOrderedSendPackets
      com.reliableOrderedSendQueue =
      .ok ⟨com.reliableOrderedSendPackets, com.reliableOrderedSendQueue, []⟩ :=
    flushMessages_closed (h true)
  unfold flush
  rw [hu', Outcome.bind_ok, ho', Outcome.bind_ok, hu, flushUnreliable_nil, Outcome.bind_ok, ← hu]
  rfl

variable {x : Endpoint S R Buf} {y : Endpoint R S Buf}

/-- A stuck endpoint builds no packet and owes no heartbeat. -/
theorem Stuck.beginSend (h : Stuck x y) (now : Instant) : x.com.beginSend now x.socket =
    .ok ({ x.com with receivedPacketDuplicate := false }, []) := by
  have hdue : x.com.heartbeatDue = false := by
    obtain ⟨ordered, hq⟩ := h.queued
    unfold heartbeatDue
    cases ordered
    · have hq : x.com.reliableSendQueue ≠ [] := hq
      simp [hq]
    · have hq : x.com.reliableOrderedSendQueue ≠ [] := hq
      simp [hq]
  rw [beginSend_eq, primed, hdue, if_neg Bool.false_ne_true]
  generalize hcom : ({ x.com with receivedPacketDuplicate := false } :
    InnerUdpCommunicator S R) = com
  apply flush_closed now x.socket
  · rw [← hcom]
    exact h.unreliable
  · rw [← hcom]
    exact Bool.forall_bool.mpr ⟨h.full false, h.full true⟩

end Closed

/-! ## The steps of a stuck endpoint -/

theorem RingBuffer.pushWillOverride_eq_get {T : Type} (r : RingBuffer T 32) :
    r.pushWillOverride = (r.get (r.getNextIndex - 32)).isSome := r.pushWillOverride_eq

section Steps

variable [ByteRepr S] {x x' : Endpoint S R Buf} {y : Endpoint R S Buf} {link : Link S Buf D}

namespace Endpoint.Inv

theorem stillSends (h : x.Inv) {channel : Channel} {index : Nat} {b : Built S}
    (ho : x.Outgoing channel index) (hb : (x.builtIn channel)[index]? = some b) :
    x.StillSends b.packet := by
  cases channel with
  | unreliable =>
    obtain ⟨hlt, hle⟩ := ho
    obtain ⟨before, hbefore⟩ := h.waiting
    have hlen := congrArg List.length hbefore
    rw [List.length_map, List.length_append] at hlen
    have hb : x.unreliableLog[index]? = some b := hb
    have hget : (x.unreliableLog.map Built.packet)[index]? = some b.packet := by
      rw [List.getElem?_map, hb]
      rfl
    rw [hbefore, List.getElem?_append_right (by omega)] at hget
    exact .inl (List.mem_of_getElem? hget)
  | reliable ordered =>
    obtain ⟨p, b', hp, hb', e⟩ := (h.send ordered).get_pending ho
    have hb : (x.log ordered)[index]? = some b := hb
    rw [hb] at hb'
    obtain rfl := Option.some.inj hb'
    exact .inr ⟨ordered, _, p, hp, e.symm⟩

theorem outgoing (h : x.Inv) {packet : Packet S} (hp : x.StillSends packet) :
    ∃ channel index b, x.Outgoing channel index ∧ (x.builtIn channel)[index]? = some b ∧
      b.packet = packet := by
  rcases hp with hp | ⟨ordered, id, p, hp, rfl⟩
  · obtain ⟨i, hi⟩ := List.mem_iff_getElem?.mp hp
    obtain ⟨ho, b, hb, e⟩ := h.getElem?_waiting hi
    exact ⟨.unreliable, _, b, ho, hb, e⟩
  · obtain ⟨ho, b, hb, e⟩ := h.indexOf hp
    exact ⟨.reliable ordered, _, b, ho, hb, e⟩

end Endpoint.Inv

namespace Stuck

omit [ByteRepr S] in
theorem stays_topUp (h : Stuck x y) (retries : Nat) : Stays x (x.topUp retries) where
  queue ordered := by cases ordered <;> rfl
  unreliable := rfl
  newest ordered := by rw [sendWindow_topUp]; rfl
  full ordered hq := by
    have := h.full ordered hq
    rw [RingBuffer.pushWillOverride_eq_get] at this ⊢
    rw [sendWindow_topUp, RingBuffer.get_mapItems, Option.isSome_map]
    exact this
  stillSends packet hp := by
    rcases hp with hp | ⟨ordered, id, p, hp, rfl⟩
    · exact .inl hp
    · rw [sendWindow_topUp, RingBuffer.get_mapItems, Option.map_eq_some_iff] at hp
      obtain ⟨q, hq, rfl⟩ := hp
      exact .inr ⟨ordered, id, q, hq, rfl⟩
  log _ := rfl

/-- Sending builds nothing; the datagrams are those of packets it still sends. -/
theorem stays_send (h : Stuck x y) (hx : x.Inv) (hlink : link.Faithful) {env : SendEnv S}
    {out : List (Datagram D)} (hs : x.send link env = some (x', out)) (hg : x'.givenUp = []) :
    Stays x x' ∧ ∀ d ∈ out, ∃ b, (x.builtIn d.channel)[d.index]? = some b ∧
      x.StillSends b.packet := by
  have hsends := hx.sends hlink hs
  obtain ⟨com, packets, com', st, error, hb, hp, rfl, rfl⟩ := Endpoint.send_eq_some.mp hs
  have hbuilt := (hx.begins hb).inv hx
  simp only [h.beginSend, Outcome.ok.injEq, Prod.mk.injEq] at hb
  obtain ⟨hcom, rfl⟩ := hb
  have hwindow : ∀ ordered, com.sendWindow ordered = x.com.sendWindow ordered := by
    rw [← hcom]
    exact Bool.forall_bool.mpr ⟨rfl, rfl⟩
  have hqueue : ∀ ordered, com.sendQueue ordered = x.com.sendQueue ordered := by
    rw [← hcom]
    exact Bool.forall_bool.mpr ⟨rfl, rfl⟩
  have hwait : com.unreliableSendPackets = x.com.unreliableSendPackets := by rw [← hcom]
  have hunreliable : com.unreliableSendQueue = x.com.unreliableSendQueue := by rw [← hcom]
  have hlog : ∀ channel, (x.build com []).builtIn channel = x.builtIn channel := fun channel => by
    cases channel with
    | unreliable =>
      show x.unreliableLog ++ (com.unreliableSendPackets.drop _).map _ = x.unreliableLog
      rw [hwait, List.drop_length, List.map_nil, List.append_nil]
    | reliable ordered => exact (log_build ordered).trans (List.append_nil _)
  have hstill : ∀ packet, (x.build com []).StillSends packet → x.StillSends packet := by
    rintro packet (hp | ⟨ordered, id, p, hp, rfl⟩)
    · exact .inl (hwait ▸ hp)
    · exact .inr ⟨ordered, id, p, hwindow ordered ▸ hp, rfl⟩
  have hh : Hands link (x.build com []).com com' st := hbuilt.hands hlink hp
  obtain ⟨hqueue', hunreliable', hwait'⟩ := hh.frame
  refine ⟨⟨fun ordered => (hqueue' ordered).trans (hqueue ordered),
    hunreliable'.trans hunreliable, fun ordered => ?_, fun ordered hq => ?_, fun packet hp => ?_,
    hlog⟩, fun d hd => ?_⟩
  · exact (hh.shrinks ordered).newest.trans (congrArg RingBuffer.newest (hwindow ordered))
  · -- the oldest packet is not given up
    have hl : (x.build com []).log ordered = x.log ordered := hlog (.reliable ordered)
    obtain ⟨k, hk, he⟩ := (hx.send ordered).override_iff.mp (h.full ordered hq)
    have hk : k ∈ pendingIn ((x.build com []).com.sendWindow ordered)
        ((x.build com []).log ordered).length := by
      rw [hl]
      exact hwindow ordered ▸ hk
    refine (hsends.inv.send ordered).override_iff.mpr
      ⟨k, ?_, he.trans (congrArg List.length hl.symm)⟩
    by_contra hc
    have hgone : k ∈ gone ((x.build com []).com.sendWindow ordered) (com'.sendWindow ordered)
        ((x.build com []).log ordered).length := by
      refine mem_gone.mpr ⟨hk, ?_⟩
      obtain ⟨hlt, hn, -⟩ := mem_pendingIn.mp hk
      rw [← Option.not_isSome_iff_eq_none]
      exact fun hs => hc (mem_pendingIn.mpr ⟨hlt, hn, hs⟩)
    rw [(gone_of_sent hg).2 ordered] at hgone
    cases hgone
  · rcases hp with hp | ⟨ordered, id, p, hp, rfl⟩
    · have hp : packet ∈ com'.unreliableSendPackets := hp
      rw [hwait'] at hp
      cases hp
    · obtain ⟨q, hq, e⟩ := (hh.shrinks ordered).pending id p hp
      exact hstill _ (.inr ⟨ordered, id, q, hq, e.symm⟩)
  · obtain ⟨ho, b, hb, -⟩ := hh.outgoing hbuilt d hd
    rw [hlog] at hb
    exact ⟨b, hb, hstill _ (hbuilt.stillSends ho (hlog d.channel ▸ hb))⟩

omit [ByteRepr S] in
theorem stays_receive (h : Stuck x y) {b : Built R} (hu : Useless x b.packet) (k : Nat)
    (now : Instant) (buf : Buf) : Stays x (x.receive k b.packet now buf) := by
  obtain ⟨hwindow, hqueue, hunreliable, hwait⟩ := onPacket_sendSide now x.com b.packet
  have hshrinks : ∀ ordered, Shrinks (x.com.sendWindow ordered)
      ((x.com.onPacket now b.packet).sendWindow ordered) := fun ordered => by
    rcases hwindow with ⟨-, e⟩ | ⟨-, e⟩
    · rw [e]
      exact .refl _
    · rw [e]
      exact shrinks_takeAcked _ _ _
  refine ⟨hqueue, hunreliable, fun ordered => (hshrinks ordered).newest, fun ordered hq => ?_,
    fun packet hp => ?_, fun channel => ?_⟩
  · show ((x.com.onPacket now b.packet).sendWindow ordered).pushWillOverride = true
    rcases hwindow with ⟨-, e⟩ | ⟨hprocessed, e⟩
    · rw [e]
      exact h.full ordered hq
    · -- the acknowledgement does not name the packet in the way
      have hnames := hu hprocessed ordered hq
      have hfull := h.full ordered hq
      unfold PacketAck.names at hnames
      rw [RingBuffer.pushWillOverride_eq_get, RingBuffer.getNextIndex] at hfull ⊢
      rw [RingBuffer.getNextIndex] at hnames
      rw [e, newest_takeAcked, get_takeAcked, hnames]
      exact hfull
  · rcases hp with hp | ⟨ordered, id, p, hp, rfl⟩
    · exact .inl (hwait ▸ hp)
    · obtain ⟨q, hq, e⟩ := (hshrinks ordered).pending id p hp
      exact .inr ⟨ordered, id, q, hq, e.symm⟩
  · cases channel with
    | unreliable => rfl
    | reliable ordered => cases ordered <;> rfl

end Stuck

end Steps

end MiniUdp
