import MiniUdp.Communicator.Multi
import MiniUdp.Communicator.Oblivious

/-!
# One connection and its socket

`UdpCommunicator` is one end of a connection with a socket of its own, `Call`
what an application can ask a connection to do between `recv` and `send`.
-/

namespace MiniUdp

open InnerUdpCommunicator

variable {A S R : Type}

/-- A method of `Communicator` that changes the connection. -/
inductive Call (S : Type) where
  | write (message : S)
  | writeReliable (message : S)
  | writeOrdered (message : S)
  | writeHeartbeat
  | read
  | readOrdered
  deriving DecidableEq, Repr

namespace InnerUdpCommunicator

def call (com : InnerUdpCommunicator S R) : Call S → InnerUdpCommunicator S R
  | .write m => com.write m
  | .writeReliable m => com.writeReliable m
  | .writeOrdered m => com.writeOrdered m
  | .writeHeartbeat => com.writeHeartbeat
  | .read => com.read.2
  | .readOrdered => com.readOrdered.2

def calls (com : InnerUdpCommunicator S R) (cs : List (Call S)) : InnerUdpCommunicator S R :=
  cs.foldl call com

theorem calls_append (com : InnerUdpCommunicator S R) (cs cs' : List (Call S)) :
    com.calls (cs ++ cs') = (com.calls cs).calls cs' := List.foldl_append ..

end InnerUdpCommunicator

/-- A datagram of a connected socket, with the reading of `read_packet`. -/
structure Incoming where
  datagram : Bytes
  now : Instant

structure UdpCommunicator (S R : Type) where
  socket : UdpCommunicatorSocket DataBuffer
  inner : InnerUdpCommunicator S R

/-- What one call of `send` builds and hands to the socket, and the error it returns. -/
abbrev Sent (S : Type) := List (Packet S) × SendState Unit Bytes × Option ByteReprError

namespace UdpCommunicator

/-- `InnerUdpCommunicator::receive`, one datagram. -/
def receiveOne [ByteRepr R] (ctx : MiniUdpContext) (com : UdpCommunicator S R) (d : Incoming) :
    Res (UdpCommunicator S R) := do
  let (n, dataBuffer) := com.socket.dataBuffer.recvFrom d.datagram
  let inner ← com.inner.readPacket ctx n dataBuffer d.now
  pure { socket := { com.socket with dataBuffer }, inner }

def recv [ByteRepr R] (ctx : MiniUdpContext) (com : UdpCommunicator S R) (ds : List Incoming) :
    Res (UdpCommunicator S R) := ds.foldlM (receiveOne ctx) com

def send [ByteRepr S] (ctx : MiniUdpContext) (env : SendEnv S) (com : UdpCommunicator S R) :
    Res (UdpCommunicator S R × Sent S) := do
  let (inner, sent) ← com.inner.send (crcLink ctx) env com.socket
  pure ({ socket := { com.socket with dataBuffer := sent.2.1.buf }, inner }, forgetBuffer sent)

def tick [ByteRepr S] [ByteRepr R] (ctx : MiniUdpContext) (ds : List Incoming) (env : SendEnv S)
    (com : UdpCommunicator S R) : Res (UdpCommunicator S R × Sent S) := do
  let com ← com.recv ctx ds
  com.send ctx env

end UdpCommunicator

end MiniUdp
