import MiniUdp.Communicator.Receive
import MiniUdp.Communicator.Flush

/-!
# Endpoints with a history

An endpoint is a communicator and its socket, together with a record of what
has happened: what was written, which packets were built, which packets of the
other side were accepted, what was put into the two receive queues. The steps
of the communicator never look at the record; the properties of a connection
are stated with it. Packets are counted from 0 in each channel, so that
packet `k` of a reliable channel carries the number `seq k`.
-/

namespace MiniUdp

open Serial

/-! ## The two reliable channels -/

section Channels

variable {S R : Type}

namespace InnerUdpCommunicator

def sendWindow (com : InnerUdpCommunicator S R) (ordered : Bool) :
    RingBuffer (PendingPacket S) 32 :=
  if ordered then com.reliableOrderedSendPackets else com.reliableSendPackets

def sendQueue (com : InnerUdpCommunicator S R) (ordered : Bool) : List S :=
  if ordered then com.reliableOrderedSendQueue else com.reliableSendQueue

end InnerUdpCommunicator

namespace PacketAck

/-- The newest number an acknowledgement names in a channel. -/
def newest (ack : PacketAck) (ordered : Bool) : UInt16 :=
  if ordered then ack.orderedNewestReceived else ack.reliableNewestReceived

def bits (ack : PacketAck) (ordered : Bool) : UInt32 :=
  if ordered then ack.orderedAckBits else ack.reliableAckBits

/-- Does the acknowledgement name the packet `id` of a channel? -/
def names (ack : PacketAck) (ordered : Bool) (id : UInt16) : Bool :=
  covers (ack.newest ordered) (ack.bits ordered) id

end PacketAck

end Channels

/-! ## Endpoints -/

inductive Channel where
  | unreliable
  | reliable (ordered : Bool)
  deriving DecidableEq, Repr

/-- How many packets of the other side there are up to the newest one accepted. -/
structure Named where
  unordered : Nat
  ordered : Nat
  deriving DecidableEq, Repr

def Named.of (named : Named) (ordered : Bool) : Nat :=
  if ordered then named.ordered else named.unordered

/-- A packet, and what its acknowledgement names. -/
structure Built (S : Type) where
  packet : Packet S
  named : Named
  deriving DecidableEq, Repr

/-- Messages put into the queue for unordered messages, with the packet they came in. -/
structure Put (R : Type) where
  channel : Channel
  index : Nat
  messages : List R
  deriving DecidableEq, Repr

/-- A datagram on the way, with the packet it was written from. -/
structure Datagram (D : Type) where
  body : D
  channel : Channel
  index : Nat
  deriving DecidableEq, Repr

structure Endpoint (S R Buf : Type) where
  com : InnerUdpCommunicator S R
  socket : UdpCommunicatorSocket Buf
  wroteReliable : List S := []
  wroteOrdered : List S := []
  unreliableLog : List (Built S) := []
  reliableLog : List (Built S) := []
  orderedLog : List (Built S) := []
  reliableAccepted : List Nat := []
  orderedAccepted : List Nat := []
  /-- How many ordered packets have been put out. -/
  released : Nat := 0
  puts : List (Put R) := []
  /-- The messages the application has read. -/
  readUnordered : List R := []
  readOrdered : List R := []
  /-- The ordered packets that acknowledgements took out of the send window. -/
  orderedAcked : List Nat := []
  /-- The packets given up after their last retry. -/
  givenUp : List (Bool × Nat) := []

/-- One more than the largest item. -/
def top : List Nat → Nat
  | [] => 0
  | k :: ks => max (k + 1) (top ks)

/-- The packets of a window when `n` have been built. -/
def pendingIn {T : Type} (window : RingBuffer T 32) (n : Nat) : List Nat :=
  (List.range n).filter fun k => decide (n ≤ k + 32) && (window.get (seq k)).isSome

/-- What a window has lost. -/
def gone {T : Type} (before after : RingBuffer T 32) (n : Nat) : List Nat :=
  (pendingIn before n).filter fun k => (after.get (seq k)).isNone

namespace Endpoint

variable {S R Buf D : Type}

def log (x : Endpoint S R Buf) (ordered : Bool) : List (Built S) :=
  if ordered then x.orderedLog else x.reliableLog

def builtIn (x : Endpoint S R Buf) : Channel → List (Built S)
  | .unreliable => x.unreliableLog
  | .reliable ordered => x.log ordered

def wrote (x : Endpoint S R Buf) (ordered : Bool) : List S :=
  if ordered then x.wroteOrdered else x.wroteReliable

def accepted (x : Endpoint S R Buf) (ordered : Bool) : List Nat :=
  if ordered then x.orderedAccepted else x.reliableAccepted

def named (x : Endpoint S R Buf) : Named := ⟨top x.reliableAccepted, top x.orderedAccepted⟩

/-- Everything ever put into the queue for unordered messages, and into that for ordered ones. -/
def everPut (x : Endpoint S R Buf) : List R := x.readUnordered ++ x.com.unorderedRecvQueue

def everPutOrdered (x : Endpoint S R Buf) : List R := x.readOrdered ++ x.com.orderedRecvQueue

/-! ### Sending -/

/-- The communicator has built packets: `packets` the reliable ones, the unreliable ones wait. -/
def build (x : Endpoint S R Buf) (com : InnerUdpCommunicator S R) (packets : List (Packet S)) :
    Endpoint S R Buf :=
  { x with
    com
    unreliableLog := x.unreliableLog ++
      (com.unreliableSendPackets.drop x.com.unreliableSendPackets.length).map (Built.mk · x.named)
    reliableLog := x.reliableLog ++
      (packets.filter (·.ordered == false)).map (Built.mk · x.named)
    orderedLog := x.orderedLog ++
      (packets.filter (·.ordered == true)).map (Built.mk · x.named) }

/-- Which packet has the number `id` in the send window? -/
def indexOf (x : Endpoint S R Buf) (ordered : Bool) (id : UInt16) : Nat :=
  (x.log ordered).length - 1 - ((x.com.sendWindow ordered).newest - id).toNat

/-- The datagrams handed to the socket. -/
def datagrams (x : Endpoint S R Buf) (st : InnerUdpCommunicator.SendState Buf D) :
    List (Datagram D) :=
  (st.unordered.map fun d => ⟨d.2, .reliable false, x.indexOf false d.1⟩) ++
  (st.ordered.map fun d => ⟨d.2, .reliable true, x.indexOf true d.1⟩) ++
  (st.unreliable.map fun d => ⟨d.2, .unreliable,
    x.unreliableLog.length - x.com.unreliableSendPackets.length + d.1⟩)

/-- The communicator after `send_packets`. -/
def sent (x : Endpoint S R Buf) (com : InnerUdpCommunicator S R) (buf : Buf) : Endpoint S R Buf :=
  { x with
    com
    socket := { x.socket with dataBuffer := buf }
    givenUp := x.givenUp ++
      (gone x.com.reliableSendPackets com.reliableSendPackets x.reliableLog.length).map
        (false, ·) ++
      (gone x.com.reliableOrderedSendPackets com.reliableOrderedSendPackets
        x.orderedLog.length).map (true, ·) }

def send [ByteRepr S] (link : Link S Buf D) (env : SendEnv S) (x : Endpoint S R Buf) :
    Option (Endpoint S R Buf × List (Datagram D)) :=
  match x.com.beginSend env.now x.socket with
  | .ok (com, packets) =>
    match com.sendPackets link env x.socket with
    | .ok (com', st, _) =>
      some ((x.build com packets).sent com' st.buf, (x.build com packets).datagrams st)
    | _ => none
  | _ => none

/-! ### Receiving -/

/-- The communicator after it has taken a packet, which was packet `index` of its channel. -/
def receive (x : Endpoint S R Buf) (index : Nat) (packet : Packet R) (now : Instant) (buf : Buf) :
    Endpoint S R Buf :=
  let com := x.com.onPacket now packet
  let taken := packet.reliable && x.com.accepts packet
  { x with
    com
    socket := { x.socket with dataBuffer := buf }
    reliableAccepted := x.reliableAccepted ++ if taken && !packet.ordered then [index] else []
    orderedAccepted := x.orderedAccepted ++ if taken && packet.ordered then [index] else []
    released := x.released + (com.orderedReadPacketHead - x.com.orderedReadPacketHead).toNat
    puts := x.puts ++ if !packet.reliable || (taken && !packet.ordered) then
      [⟨if packet.reliable then .reliable false else .unreliable, index,
        com.unorderedRecvQueue.drop x.com.unorderedRecvQueue.length⟩] else []
    orderedAcked := x.orderedAcked ++ gone x.com.reliableOrderedSendPackets
      com.reliableOrderedSendPackets x.orderedLog.length }

/-- One round of `receive`: a datagram comes out of the socket. -/
def deliver (link : Link R Buf D) (d : Datagram D) (now : Instant) (x : Endpoint S R Buf) :
    Option (Endpoint S R Buf) :=
  match link.read d.body x.socket.dataBuffer with
  | (buf, .ok (some packet)) => some (x.receive d.index packet now buf)
  | (buf, .ok none) => some { x with socket := { x.socket with dataBuffer := buf } }
  | _ => none

/-! ### Steps -/

end Endpoint

/-- Change every item of a buffer. -/
def RingBuffer.mapItems {T : Type} {N : Nat} (r : RingBuffer T N) (f : T → T) : RingBuffer T N :=
  { r with items := r.items.map (Option.map f) }

/-- What can happen at an endpoint. -/
inductive Event (S : Type) where
  | write (message : S)
  | writeReliable (message : S)
  | writeOrdered (message : S)
  | writeHeartbeat
  | read
  | readOrdered
  | send (env : SendEnv S)
  /-- A datagram on the way arrives; it stays on the way, as a duplicate. -/
  | deliver (place : Nat) (now : Instant)
  /-- Every retry counter is set anew. -/
  | topUp (retries : Nat)

namespace Endpoint

variable {S R Buf D : Type}

def topUp (x : Endpoint S R Buf) (retries : Nat) : Endpoint S R Buf :=
  { x with
    com := { x.com with
      reliableSendPackets := x.com.reliableSendPackets.mapItems
        fun p => { p with remainingRetries := retries }
      reliableOrderedSendPackets := x.com.reliableOrderedSendPackets.mapItems
        fun p => { p with remainingRetries := retries } }
    socket := { x.socket with
      maxReliableUnorderedRetries := retries
      maxReliableOrderedRetries := retries } }

/-- One step, and the datagrams it hands to the socket. Datagrams are written with `out` and read
with `inn`. -/
def step [ByteRepr S] (out : Link S Buf D) (inn : Link R Buf D) (incoming : List (Datagram D))
    (x : Endpoint S R Buf) : Event S → Option (Endpoint S R Buf × List (Datagram D))
  | .write m => some ({ x with com := x.com.write m }, [])
  | .writeReliable m =>
    some ({ x with com := x.com.writeReliable m, wroteReliable := x.wroteReliable ++ [m] }, [])
  | .writeOrdered m =>
    some ({ x with com := x.com.writeOrdered m, wroteOrdered := x.wroteOrdered ++ [m] }, [])
  | .writeHeartbeat => some (x.build x.com.writeHeartbeat [], [])
  | .read => some ({ x with
      com := x.com.read.2
      readUnordered := x.readUnordered ++ x.com.read.1.toList }, [])
  | .readOrdered => some ({ x with
      com := x.com.readOrdered.2
      readOrdered := x.readOrdered ++ x.com.readOrdered.1.toList }, [])
  | .send env => x.send out env
  | .deliver place now =>
    match incoming[place]? with
    | some d => (x.deliver inn d now).map (·, [])
    | none => none
  | .topUp retries => some (x.topUp retries, [])

/-- The communicator of an endpoint sends as the code does. -/
theorem com_send [ByteRepr S] {link : Link S Buf D} {env : SendEnv S} {x x' : Endpoint S R Buf}
    {out : List (Datagram D)} (h : x.send link env = some (x', out)) :
    ∃ built st error, x.com.send link env x.socket = .ok (x'.com, built, st, error) := by
  unfold send at h
  split at h
  · rename_i com packets hb
    split at h
    · rename_i com' st error hs
      simp only [Option.some.injEq, Prod.mk.injEq] at h
      obtain ⟨rfl, rfl⟩ := h
      refine ⟨packets, st, error, ?_⟩
      simp only [InnerUdpCommunicator.send, hb, Outcome.bind_ok, hs]
      rfl
    · cases h
  · cases h

end Endpoint

end MiniUdp
