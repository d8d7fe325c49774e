import MiniUdp.System.Windows

/-!
# What holds in every state

`Endpoint.Inv` is about one endpoint, `Cross` about the packets of one endpoint
and the receiving half of the other. As long as no packet is given up the
windows also cover everything that was not accepted (`Covered`). A step of the
sending half extends the record and never brings a packet back (`SenderStep`),
which is all that `Cross` needs to know of it.
-/

namespace MiniUdp

open Serial

variable {S R Buf D : Type}

/-! ## The receiving half -/

structure Receiver (R : Type) where
  unorderedReceived : RingBuffer Unit 32
  orderedReceived : RingBuffer (Packet R) 32
  head : UInt16
  reliableAccepted : List Nat
  orderedAccepted : List Nat
  released : Nat
  puts : List (Put R)
  everPut : List R
  everPutOrdered : List R

def Endpoint.receiver (x : Endpoint S R Buf) : Receiver R where
  unorderedReceived := x.com.reliableReceivedPackets
  orderedReceived := x.com.reliableOrderedReceivedPackets
  head := x.com.orderedReadPacketHead
  reliableAccepted := x.reliableAccepted
  orderedAccepted := x.orderedAccepted
  released := x.released
  puts := x.puts
  everPut := x.everPut
  everPutOrdered := x.everPutOrdered

namespace Receiver

def accepted (r : Receiver R) (ordered : Bool) : List Nat :=
  if ordered then r.orderedAccepted else r.reliableAccepted

def newest (r : Receiver R) (ordered : Bool) : UInt16 :=
  if ordered then r.orderedReceived.newest else r.unorderedReceived.newest

def has (r : Receiver R) (ordered : Bool) (id : UInt16) : Bool :=
  if ordered then (r.orderedReceived.get id).isSome else (r.unorderedReceived.get id).isSome

def named (r : Receiver R) : Named := ⟨top r.reliableAccepted, top r.orderedAccepted⟩

theorem of_named (r : Receiver R) (ordered : Bool) :
    r.named.of ordered = top (r.accepted ordered) := by
  cases ordered <;> rfl

theorem forall_accepted (r : Receiver R) {P : Bool → List Nat → Prop} :
    (∀ ordered, P ordered (r.accepted ordered)) ↔
      P false r.reliableAccepted ∧ P true r.orderedAccepted :=
  Bool.forall_bool

theorem forall_windows (r : Receiver R) :
    (∀ ordered, RecvInv (r.newest ordered) (r.has ordered) (r.accepted ordered)) ↔
      RecvInv r.unorderedReceived.newest (fun id => (r.unorderedReceived.get id).isSome)
        r.reliableAccepted ∧
      RecvInv r.orderedReceived.newest (fun id => (r.orderedReceived.get id).isSome)
        r.orderedAccepted :=
  Bool.forall_bool

structure Inv (r : Receiver R) : Prop where
  windows : ∀ ordered, RecvInv (r.newest ordered) (r.has ordered) (r.accepted ordered)
  nodup : ∀ ordered, (r.accepted ordered).Nodup
  put : r.everPut = r.puts.flatMap Put.messages
  indices : (r.puts.filter fun p => p.channel = .reliable false).map Put.index =
    r.reliableAccepted
  channels : ∀ p ∈ r.puts, p.channel ≠ .reliable true

/-- The ordered packets `log` of the other side at a receiver: those put out so far, and those in
the window. -/
structure Ordered (log : List (Built R)) (r : Receiver R) : Prop where
  head : r.head = seq r.released
  le_top : r.released ≤ top r.orderedAccepted
  before : ∀ k < r.released, k ∈ r.orderedAccepted
  /-- The next packet to be put out has not come in, or it is lost. -/
  next : r.released ∈ r.orderedAccepted → r.released + 32 < top r.orderedAccepted
  stored : ∀ k ∈ r.orderedAccepted, top r.orderedAccepted ≤ k + 32 →
    ∃ p, r.orderedReceived.get (seq k) = some p ∧ (k < r.released → p.messages = []) ∧
      (r.released ≤ k → ∃ b, log[k]? = some b ∧ p.messages = b.packet.messages)
  put : r.everPutOrdered = (log.take r.released).flatMap fun b => b.packet.messages

end Receiver

/-! ## One endpoint -/

namespace Endpoint

structure Inv [ByteRepr S] (x : Endpoint S R Buf) : Prop where
  send : ∀ ordered, SendInv ordered (x.com.sendWindow ordered) (x.log ordered)
    (x.com.sendQueue ordered) (x.wrote ordered)
  receiver : x.receiver.Inv
  acks : ∀ channel, ∀ b ∈ x.builtIn channel, ∀ ordered,
    AckOk (x.accepted ordered) (b.named.of ordered) b.packet.ack ordered
  waiting : ∃ before, x.unreliableLog.map Built.packet = before ++ x.com.unreliableSendPackets
  unreliable : ∀ b ∈ x.unreliableLog, b.packet.reliable = false ∧
    Packet.dataLen b.packet.messages ≤ MAX_PACKET_DATA_LEN

/-- The packets of a channel that wait for an acknowledgement. -/
def pending (x : Endpoint S R Buf) (ordered : Bool) : List Nat :=
  pendingIn (x.com.sendWindow ordered) (x.log ordered).length

/-- Packet `index` of a channel will be handed to the socket, for the first time or again. -/
def Outgoing (x : Endpoint S R Buf) : Channel → Nat → Prop
  | .unreliable, index => index < x.unreliableLog.length ∧
      x.unreliableLog.length ≤ index + x.com.unreliableSendPackets.length
  | .reliable ordered, index => index ∈ x.pending ordered

/-- The abstract window of a channel. -/
def view (x : Endpoint S R Buf) (ordered : Bool) (accepted : List Nat) : SlidingWindow :=
  viewOf (x.com.sendWindow ordered) (x.log ordered).length accepted

theorem log_prefix {x x' : Endpoint S R Buf} (h : ∀ channel, x.builtIn channel <+: x'.builtIn channel)
    (ordered : Bool) : x.log ordered <+: x'.log ordered := h (.reliable ordered)

end Endpoint

theorem getElem?_of_prefix {T : Type} {l l' : List T} (h : l <+: l') {k : Nat} {b : T}
    (hb : l[k]? = some b) : l'[k]? = some b := by
  obtain ⟨t, rfl⟩ := h
  rw [List.getElem?_append_left (List.getElem?_eq_some_iff.mp hb).1, hb]

/-! ## A step of the sending half -/

/-- What can happen to the sending half of an endpoint when the other side has accepted
`accepted`. -/
structure SenderStep (accepted : Bool → List Nat) (x x' : Endpoint S R Buf) : Prop where
  log : ∀ channel, x.builtIn channel <+: x'.builtIn channel
  pending : ∀ ordered, ∀ k ∈ x'.pending ordered,
    k ∈ x.pending ordered ∨ (x.log ordered).length ≤ k
  acked : ∀ k ∈ x'.orderedAcked, k ∈ x.orderedAcked ∨ k ∈ accepted true ∧
    (k ∈ x.pending true ∨ (x.log true).length ≤ k)
  cover : x'.givenUp = [] → x.givenUp = [] ∧ ∀ ordered,
    (x.view ordered (accepted ordered)).Inv 32 → (x'.view ordered (accepted ordered)).Inv 32

theorem SenderStep.refl {accepted : Bool → List Nat} {x x' : Endpoint S R Buf}
    (hlog : ∀ channel, x'.builtIn channel = x.builtIn channel)
    (hwindow : ∀ ordered, x'.com.sendWindow ordered = x.com.sendWindow ordered)
    (hacked : x'.orderedAcked = x.orderedAcked) (hgiven : x'.givenUp = x.givenUp) :
    SenderStep accepted x x' where
  log channel := by rw [hlog]
  pending ordered k hk := by
    have hl : x'.log ordered = x.log ordered := hlog (.reliable ordered)
    rw [Endpoint.pending, hwindow, hl] at hk
    exact .inl hk
  acked k hk := .inl (hacked ▸ hk)
  cover hg := by
    refine ⟨hgiven ▸ hg, fun ordered hv => ?_⟩
    have hl : x'.log ordered = x.log ordered := hlog (.reliable ordered)
    rwa [Endpoint.view, hwindow, hl]

theorem SenderStep.trans {accepted : Bool → List Nat} {x y z : Endpoint S R Buf}
    (h1 : SenderStep accepted x y) (h2 : SenderStep accepted y z) : SenderStep accepted x z where
  log channel := (h1.log channel).trans (h2.log channel)
  pending ordered k hk := by
    have hle := (Endpoint.log_prefix h1.log ordered).length_le
    rcases h2.pending ordered k hk with hk | hk
    · exact h1.pending ordered k hk
    · exact .inr (hle.trans hk)
  acked k hk := by
    have hle := (Endpoint.log_prefix h1.log true).length_le
    rcases h2.acked k hk with hk | ⟨ha, hk | hk⟩
    · exact h1.acked k hk
    · exact .inr ⟨ha, h1.pending true k hk⟩
    · exact .inr ⟨ha, .inr (hle.trans hk)⟩
  cover hg := by
    obtain ⟨hg2, hc2⟩ := h2.cover hg
    obtain ⟨hg1, hc1⟩ := h1.cover hg2
    exact ⟨hg1, fun ordered hv => hc2 ordered (hc1 ordered hv)⟩

/-! ## One endpoint and the receiving half of the other -/

/-- A datagram is read as the packet of the log that it was written from. -/
def Carries (link : Link S Buf D) (x : Endpoint S R Buf) (d : Datagram D) : Prop :=
  ∃ b, (x.builtIn d.channel)[d.index]? = some b ∧
    ∀ buf, (link.read d.body buf).2 = .ok (some b.packet)

theorem Carries.mono {link : Link S Buf D} {x x' : Endpoint S R Buf} {d : Datagram D}
    (h : Carries link x d) (hlog : ∀ channel, x.builtIn channel <+: x'.builtIn channel) :
    Carries link x' d := by
  obtain ⟨b, hb, hread⟩ := h
  exact ⟨b, getElem?_of_prefix (hlog _) hb, hread⟩

/-- What arrives is taken for the packet it was written from. -/
theorem Carries.deliver {link : Link R Buf D} {y : Endpoint R S Buf} {d : Datagram D}
    (h : Carries link y d) (x : Endpoint S R Buf) (now : Instant) :
    ∃ b buf, (y.builtIn d.channel)[d.index]? = some b ∧
      x.deliver link d now = some (x.receive d.index b.packet now buf) := by
  obtain ⟨b, hb, hread⟩ := h
  have hread := hread x.socket.dataBuffer
  unfold Endpoint.deliver
  generalize link.read d.body x.socket.dataBuffer = result at hread ⊢
  obtain ⟨buf, res⟩ := result
  obtain rfl : res = .ok (some b.packet) := hread
  exact ⟨b, buf, hb, rfl⟩

/-- Nothing is lost between a sender and a receiver. -/
structure Covered (x : Endpoint S R Buf) (r : Receiver S) : Prop where
  view : ∀ ordered, (x.view ordered (r.accepted ordered)).Inv 32
  near : top r.orderedAccepted ≤ r.released + 32

/-- The packets of `x`, the datagrams `flight` on the way and the receiver `r` of the other side. -/
structure Cross (link : Link S Buf D) (x : Endpoint S R Buf) (r : Receiver S)
    (flight : List (Datagram D)) : Prop where
  accepted_lt : ∀ ordered, ∀ k ∈ r.accepted ordered, k < (x.log ordered).length
  flight : ∀ d ∈ flight, Carries link x d
  acked : ∀ k ∈ x.orderedAcked, k ∈ r.orderedAccepted
  puts : ∀ p ∈ r.puts, ∃ b, (x.builtIn p.channel)[p.index]? = some b ∧
    p.messages = b.packet.messages
  ordered : r.Ordered x.orderedLog
  covered : x.givenUp = [] → Covered x r

/-- A longer log is as good. -/
theorem Receiver.Ordered.mono {log log' : List (Built R)} {r : Receiver R} (h : r.Ordered log)
    (hlog : log <+: log') (hlt : ∀ k ∈ r.orderedAccepted, k < log.length) : r.Ordered log' where
  head := h.head
  le_top := h.le_top
  before := h.before
  next := h.next
  stored k hk hn := by
    obtain ⟨p, hp, h1, h2⟩ := h.stored k hk hn
    refine ⟨p, hp, h1, fun hle => ?_⟩
    obtain ⟨b, hb, e⟩ := h2 hle
    exact ⟨b, getElem?_of_prefix hlog hb, e⟩
  put := by
    have hle : r.released ≤ log.length := h.le_top.trans (top_le hlt)
    obtain ⟨t, rfl⟩ := hlog
    rw [h.put, List.take_append_of_le_length hle]

theorem Cross.sender {link : Link S Buf D} {x x' : Endpoint S R Buf} {r : Receiver S}
    {flight out : List (Datagram D)} (h : Cross link x r flight) (hs : SenderStep r.accepted x x')
    (hout : ∀ d ∈ out, Carries link x' d) : Cross link x' r (flight ++ out) where
  accepted_lt ordered k hk :=
    (h.accepted_lt ordered k hk).trans_le (Endpoint.log_prefix hs.log ordered).length_le
  flight d hd := by
    rcases List.mem_append.mp hd with hd | hd
    · exact (h.flight d hd).mono hs.log
    · exact hout d hd
  acked k hk := (hs.acked k hk).elim (h.acked k) fun hk => hk.1
  puts p hp := by
    obtain ⟨b, hb, e⟩ := h.puts p hp
    exact ⟨b, getElem?_of_prefix (hs.log _) hb, e⟩
  ordered := h.ordered.mono (hs.log (.reliable true)) (h.accepted_lt true)
  covered hg := by
    obtain ⟨hg', hc⟩ := hs.cover hg
    have hcov := h.covered hg'
    exact ⟨fun ordered => hc ordered (hcov.view ordered), hcov.near⟩

end MiniUdp
