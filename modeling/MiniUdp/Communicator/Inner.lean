import MiniUdp.Communicator.Socket
import MiniUdp.Lib.While

/-!
# One end of a connection

`InnerUdpCommunicator` holds both directions of a connection: the packets that
wait for an acknowledgement, the packets received, and the queues between them
and the application. `send` builds packets from the queues and hands every
packet that is due to the socket; `readPacket` takes a datagram apart.
-/

namespace MiniUdp

open While

structure PendingPacket (S : Type) where
  lastSend : Instant
  remainingRetries : Nat
  packet : Packet S
  deriving DecidableEq, Repr

structure InnerUdpCommunicator (S R : Type) where
  reliableSendPackets : RingBuffer (PendingPacket S) 32 := .new
  reliableOrderedSendPackets : RingBuffer (PendingPacket S) 32 := .new
  reliableReceivedPackets : RingBuffer Unit 32 := .new
  reliableOrderedReceivedPackets : RingBuffer (Packet R) 32 := .new
  /-- The number of the next ordered packet to be read. -/
  orderedReadPacketHead : UInt16 := 0
  unreliableSendPacketId : UInt16 := 0
  unreliableSendPackets : List (Packet S) := []
  reliableSendQueue : List S := []
  reliableOrderedSendQueue : List S := []
  unreliableSendQueue : List S := []
  unorderedRecvQueue : List R := []
  orderedRecvQueue : List R := []
  /-- A packet came in again: the other side may be missing an acknowledgement. -/
  receivedPacketDuplicate : Bool := false
  lastSeen : Instant
  lastSend : Instant

/-- What the outside world answers during one call of `send`: the clock readings, which packets
the socket takes, and whether the build checks for overflow. -/
structure SendEnv (S : Type) where
  now : Instant
  /-- The reading when a pending packet's timer is looked at. -/
  checked : Packet S → Instant
  /-- The reading that becomes its new `lastSend`. -/
  stamped : Packet S → Instant
  /-- Does `UdpSocket::send` return `Ok`? -/
  accepts : Packet S → Bool
  overflowChecks : Bool

/-! ## Flushing the queues -/

section Flush

variable {S R : Type} [ByteRepr S]

/-- How many messages from the front of a queue fit the available bytes. -/
def includedMsgs (availableBytes : Nat) : List S → Nat
  | [] => 0
  | msg :: msgs =>
    if ByteRepr.byteLen msg ≤ availableBytes then
      includedMsgs (availableBytes - ByteRepr.byteLen msg) msgs + 1
    else 0

/-- The variables of a flush loop; `built` is what it logs as constructed. -/
structure FlushState (S : Type) where
  sendPackets : RingBuffer (PendingPacket S) 32
  sendQueue : List S
  built : List (Packet S) := []

def flushGuard (st : FlushState S) : Bool :=
  !st.sendPackets.pushWillOverride && !st.sendQueue.isEmpty

def flushBody (now : Instant) (retries : Nat) (reliableReceived : RingBuffer Unit 32)
    (orderedReceived : RingBuffer (Packet R) 32) (ordered : Bool) (st : FlushState S) :
    FlushState S :=
  let included := includedMsgs MAX_PACKET_DATA_LEN st.sendQueue
  let packet : Packet S :=
    { ack := .new st.sendPackets.getNextIndex reliableReceived orderedReceived
      reliable := true
      ordered
      messages := st.sendQueue.take included }
  { sendPackets := st.sendPackets.push
      { lastSend := now - fromHours 1, remainingRetries := retries, packet }
    sendQueue := st.sendQueue.drop included
    built := st.built ++ [packet] }

/-- The free function `flush_messages`. The window has 32 slots, so 32 iterations are enough. -/
def flushMessages (now : Instant) (retries : Nat) (reliableReceived : RingBuffer Unit 32)
    (orderedReceived : RingBuffer (Packet R) 32) (ordered : Bool)
    (sendPackets : RingBuffer (PendingPacket S) 32) (sendQueue : List S) : Res (FlushState S) :=
  match runWhile flushGuard (flushBody now retries reliableReceived orderedReceived ordered) 32
    { sendPackets, sendQueue } with
  | some st => .ok st
  | none => .hang

/-- The variables of the loop over the unreliable queue. -/
structure UnreliableState (S : Type) where
  sendPacketId : UInt16
  sendPackets : List (Packet S)
  sendQueue : List S

def unreliableGuard (st : UnreliableState S) : Bool := !st.sendQueue.isEmpty

def unreliableBody (reliableReceived : RingBuffer Unit 32)
    (orderedReceived : RingBuffer (Packet R) 32) (st : UnreliableState S) : UnreliableState S :=
  let included := includedMsgs MAX_PACKET_DATA_LEN st.sendQueue
  let packet : Packet S :=
    { ack := .new st.sendPacketId reliableReceived orderedReceived
      reliable := false
      ordered := false
      messages := st.sendQueue.take included }
  { sendPacketId := st.sendPacketId + 1
    sendPackets := st.sendPackets ++ [packet]
    sendQueue := st.sendQueue.drop included }

/-- The loop over the unreliable queue. It either empties the queue within as many iterations as
there are messages or never ends. -/
def flushUnreliable (reliableReceived : RingBuffer Unit 32)
    (orderedReceived : RingBuffer (Packet R) 32) (st : UnreliableState S) :
    Res (UnreliableState S) :=
  match runWhile unreliableGuard (unreliableBody reliableReceived orderedReceived)
    st.sendQueue.length st with
  | some st => .ok st
  | none => .hang

end Flush

namespace InnerUdpCommunicator

variable {S R Buf D : Type}

/-- The queues are written and read at their ends by the application. -/
def write (com : InnerUdpCommunicator S R) (message : S) : InnerUdpCommunicator S R :=
  { com with unreliableSendQueue := com.unreliableSendQueue ++ [message] }

def writeReliable (com : InnerUdpCommunicator S R) (message : S) : InnerUdpCommunicator S R :=
  { com with reliableSendQueue := com.reliableSendQueue ++ [message] }

def writeOrdered (com : InnerUdpCommunicator S R) (message : S) : InnerUdpCommunicator S R :=
  { com with reliableOrderedSendQueue := com.reliableOrderedSendQueue ++ [message] }

def read (com : InnerUdpCommunicator S R) : Option R × InnerUdpCommunicator S R :=
  (com.unorderedRecvQueue.head?, { com with unorderedRecvQueue := com.unorderedRecvQueue.tail })

def readOrdered (com : InnerUdpCommunicator S R) : Option R × InnerUdpCommunicator S R :=
  (com.orderedRecvQueue.head?, { com with orderedRecvQueue := com.orderedRecvQueue.tail })

def hasWork (com : InnerUdpCommunicator S R) : Bool :=
  !(com.reliableSendPackets.isEmpty && com.reliableOrderedSendPackets.isEmpty &&
    com.unreliableSendPackets.isEmpty && com.reliableSendQueue.isEmpty &&
    com.reliableOrderedSendQueue.isEmpty && com.unreliableSendQueue.isEmpty)

/-! ## Sending -/

/-- The next heartbeat. -/
def heartbeat (com : InnerUdpCommunicator S R) : Packet S :=
  .heartbeat (.new com.unreliableSendPacketId com.reliableReceivedPackets
    com.reliableOrderedReceivedPackets)

def writeHeartbeat (com : InnerUdpCommunicator S R) : InnerUdpCommunicator S R :=
  { com with
    unreliableSendPacketId := com.unreliableSendPacketId + 1
    unreliableSendPackets := com.unreliableSendPackets ++ [com.heartbeat] }

/-- Does `send` owe the other side a heartbeat? -/
def heartbeatDue (com : InnerUdpCommunicator S R) : Bool :=
  com.receivedPacketDuplicate && com.reliableSendQueue.isEmpty &&
    com.reliableOrderedSendQueue.isEmpty && com.unreliableSendQueue.isEmpty

/-- The method `flush_messages`, with the reliable packets it builds. -/
def flush [ByteRepr S] (com : InnerUdpCommunicator S R) (now : Instant)
    (socket : UdpCommunicatorSocket Buf) : Res (InnerUdpCommunicator S R × List (Packet S)) := do
  let unordered ← flushMessages now socket.maxReliableUnorderedRetries
    com.reliableReceivedPackets com.reliableOrderedReceivedPackets false
    com.reliableSendPackets com.reliableSendQueue
  let ordered ← flushMessages now socket.maxReliableOrderedRetries
    com.reliableReceivedPackets com.reliableOrderedReceivedPackets true
    com.reliableOrderedSendPackets com.reliableOrderedSendQueue
  let unreliable ← flushUnreliable com.reliableReceivedPackets com.reliableOrderedReceivedPackets
    { sendPacketId := com.unreliableSendPacketId
      sendPackets := com.unreliableSendPackets
      sendQueue := com.unreliableSendQueue }
  pure ({ com with
    reliableSendPackets := unordered.sendPackets
    reliableSendQueue := unordered.sendQueue
    reliableOrderedSendPackets := ordered.sendPackets
    reliableOrderedSendQueue := ordered.sendQueue
    unreliableSendPacketId := unreliable.sendPacketId
    unreliableSendPackets := unreliable.sendPackets
    unreliableSendQueue := unreliable.sendQueue }, unordered.built ++ ordered.built)

/-- `send` up to the call of `send_packets`. -/
def beginSend [ByteRepr S] (com : InnerUdpCommunicator S R) (now : Instant)
    (socket : UdpCommunicatorSocket Buf) : Res (InnerUdpCommunicator S R × List (Packet S)) :=
  let com := if com.heartbeatDue then com.writeHeartbeat else com
  { com with receivedPacketDuplicate := false }.flush now socket

/-- What `send_packets` threads through its loops: the buffer, whether anything was sent, and the
datagrams handed to the socket, those of the reliable packets under their numbers. -/
structure SendState (Buf D : Type) where
  buf : Buf
  anySend : Bool := false
  unordered : List (UInt16 × D) := []
  ordered : List (UInt16 × D) := []
  /-- The unreliable datagrams, by their place among the packets waiting. -/
  unreliable : List (Nat × D) := []

def SendState.hand (st : SendState Buf D) (ordered : Bool) (id : UInt16) (d : D) :
    SendState Buf D :=
  if ordered then { st with ordered := st.ordered ++ [(id, d)], anySend := true }
  else { st with unordered := st.unordered ++ [(id, d)], anySend := true }

/-- `remaining_retries -= 1` on a `usize`. -/
def decrementRetries (overflowChecks : Bool) (remainingRetries : Nat) : Res Nat :=
  if remainingRetries = 0 then
    if overflowChecks then .panic else .ok (2 ^ 64 - 1)
  else .ok (remainingRetries - 1)

/-- Has the resend timer of the packet run out? -/
def resendDue (env : SendEnv S) (socket : UdpCommunicatorSocket Buf) (pending : PendingPacket S) :
    Bool :=
  let sendCooldown := if pending.packet.ordered then socket.reliableOrderedResendInterval
    else socket.reliableUnorderedResendInterval
  decide (sendCooldown < elapsed pending.lastSend (env.checked pending.packet))

/-- Answers `false` when the last retry is used up. -/
def resendIfNeeded (link : Link S Buf D) (env : SendEnv S) (socket : UdpCommunicatorSocket Buf)
    (id : UInt16) (pending : PendingPacket S) (st : SendState Buf D) :
    Res (Bool × PendingPacket S × SendState Buf D) :=
  if resendDue env socket pending then
    match link.write pending.packet st.buf with
    | (buf, .ok d) => do
      let st := { st with buf }
      let st := if env.accepts pending.packet then st.hand pending.packet.ordered id d else st
      let remainingRetries ← decrementRetries env.overflowChecks pending.remainingRetries
      pure (remainingRetries != 0,
        { pending with lastSend := env.stamped pending.packet, remainingRetries }, st)
    | (_, .hang) => .hang
    | (_, _) => .panic
  else pure (true, pending, st)

/-- `for packet in self.unreliable_send_packets.drain(..)` -/
def sendUnreliable (link : Link S Buf D) (env : SendEnv S) :
    List (Packet S) → Nat → SendState Buf D → Res (SendState Buf D × Option ByteReprError)
  | [], _, st => pure (st, none)
  | packet :: packets, place, st =>
    match link.write packet st.buf with
    | (buf, .ok d) =>
      let st := { st with buf }
      let st := if env.accepts packet then
        { st with unreliable := st.unreliable ++ [(place, d)], anySend := true } else st
      sendUnreliable link env packets (place + 1) st
    | (buf, .err e) => pure ({ st with buf }, some e)
    | (_, .panic) => .panic
    | (_, .hang) => .hang

/-- `send_packets`: the communicator, the loops' variables and the error, if there is one. -/
def sendPackets (link : Link S Buf D) (env : SendEnv S) (com : InnerUdpCommunicator S R)
    (socket : UdpCommunicatorSocket Buf) :
    Res (InnerUdpCommunicator S R × SendState Buf D × Option ByteReprError) := do
  let (unordered, st) ← com.reliableSendPackets.retain (resendIfNeeded link env socket)
    { buf := socket.dataBuffer }
  let (ordered, st) ← com.reliableOrderedSendPackets.retain (resendIfNeeded link env socket) st
  let (st, error) ← sendUnreliable link env com.unreliableSendPackets 0 st
  let com := { com with
    reliableSendPackets := unordered
    reliableOrderedSendPackets := ordered
    unreliableSendPackets := [] }
  match error with
  | some e => pure (com, st, some e)
  | none => pure (if st.anySend then { com with lastSend := env.now } else com, st, none)

/-- `send`, with the packets it builds. -/
def send [ByteRepr S] (link : Link S Buf D) (env : SendEnv S) (com : InnerUdpCommunicator S R)
    (socket : UdpCommunicatorSocket Buf) :
    Res (InnerUdpCommunicator S R × List (Packet S) × SendState Buf D × Option ByteReprError) := do
  let (com, built) ← com.beginSend env.now socket
  let (com, st, error) ← com.sendPackets link env socket
  pure (com, built, st, error)

/-! ## Receiving -/

/-- Remove the packets whose bits are set from the two windows. -/
def acknowledge (com : InnerUdpCommunicator S R) (ack : PacketAck) : InnerUdpCommunicator S R :=
  (List.range 32).foldl (fun com i =>
    let com := if ack.reliableAckBits &&& ((1 : UInt32) <<< UInt32.ofNat i) != 0 then
      { com with reliableSendPackets :=
          (com.reliableSendPackets.take (ack.reliableNewestReceived - UInt16.ofNat i)).2 }
      else com
    if ack.orderedAckBits &&& ((1 : UInt32) <<< UInt32.ofNat i) != 0 then
      { com with reliableOrderedSendPackets :=
          (com.reliableOrderedSendPackets.take (ack.orderedNewestReceived - UInt16.ofNat i)).2 }
    else com) com

/-- Is the packet's number still in the window as received? -/
def isDuplicate (com : InnerUdpCommunicator S R) (packet : Packet R) : Bool :=
  (packet.ordered && (com.reliableOrderedReceivedPackets.get packet.ack.sequenceId).isSome) ||
    (!packet.ordered && (com.reliableReceivedPackets.get packet.ack.sequenceId).isSome)

/-- Is the packet's number taken to be older than the window? -/
def isTooOld (com : InnerUdpCommunicator S R) (packet : Packet R) : Bool :=
  let newestIndex := if packet.ordered then com.reliableOrderedReceivedPackets.getNewestIndex
    else com.reliableReceivedPackets.getNewestIndex
  wrappingGt (newestIndex - 31) packet.ack.sequenceId 64

/-- The loop over the ordered packets received: put out the messages of the packet at the head
and those that follow it without a gap. -/
def releaseOrdered : List UInt16 → InnerUdpCommunicator S R → InnerUdpCommunicator S R
  | [], com => com
  | id :: ids, com =>
    if id = com.orderedReadPacketHead then
      match com.reliableOrderedReceivedPackets.get id with
      | some packet => releaseOrdered ids { com with
          reliableOrderedReceivedPackets :=
            com.reliableOrderedReceivedPackets.set id (some { packet with messages := [] })
          orderedReadPacketHead := com.orderedReadPacketHead + 1
          orderedRecvQueue := com.orderedRecvQueue ++ packet.messages }
      | none => releaseOrdered ids com
    else if wrappingGt id com.orderedReadPacketHead 32 then com
    else releaseOrdered ids com

/-- The end of `read_packet`, for a reliable packet that is neither a duplicate nor too old. -/
def accept (com : InnerUdpCommunicator S R) (packet : Packet R) : InnerUdpCommunicator S R :=
  let com := com.acknowledge packet.ack
  if packet.ordered then
    let com := { com with reliableOrderedReceivedPackets :=
      com.reliableOrderedReceivedPackets.insert packet.ack.sequenceId packet }
    releaseOrdered com.reliableOrderedReceivedPackets.keys com
  else
    { com with
      reliableReceivedPackets := com.reliableReceivedPackets.insert packet.ack.sequenceId ()
      unorderedRecvQueue := com.unorderedRecvQueue ++ packet.messages }

/-- `read_packet` once the datagram is decoded. -/
def onPacket (com : InnerUdpCommunicator S R) (now : Instant) (packet : Packet R) :
    InnerUdpCommunicator S R :=
  let com := { com with lastSeen := now }
  if !packet.reliable then
    let com := if packet.messages.isEmpty then com
      else { com with unorderedRecvQueue := com.unorderedRecvQueue ++ packet.messages }
    com.acknowledge packet.ack
  else if com.isDuplicate packet then { com with receivedPacketDuplicate := true }
  else if com.isTooOld packet then { com with receivedPacketDuplicate := true }
  else com.accept packet

/-- `read_packet` on the first `n` bytes of the buffer. -/
def readPacket [ByteRepr R] (ctx : MiniUdpContext) (com : InnerUdpCommunicator S R) (n : Nat)
    (buf : DataBuffer) (now : Instant) : Res (InnerUdpCommunicator S R) := do
  match ← checkDatagram ctx n buf with
  | some packet => pure (com.onPacket now packet)
  | none => pure com

end InnerUdpCommunicator

end MiniUdp
