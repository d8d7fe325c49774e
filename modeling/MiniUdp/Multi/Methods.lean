import MiniUdp.Communicator.Single

/-!
# The methods of a communicator with many connections

`MultiUdpCommunicator` loops over a hash map in whatever order that gives its
connections out; `order` is the order of one loop. A closure is handed one
connection at a time. It is modelled by the calls it makes there, which may
depend on the connection and on a state `W`: what the closure has captured.
-/

namespace MiniUdp

open InnerUdpCommunicator

variable {A S R W : Type}

/-- `FnMut(UdpCommunicatorMut)` -/
abbrev Handler (W A S R : Type) := A → InnerUdpCommunicator S R → W → List (Call S) × W

/-- The datagrams handed to the socket so far, call of `send` by call, with their destinations. -/
abbrev SendLog (A S : Type) := List (A × Sent S)

namespace MultiUdpCommunicator

/-! ## Loops over the connections -/

section Loops

variable [DecidableEq A]

def setCom (multi : MultiUdpCommunicator A S R) (addr : A) (com : InnerUdpCommunicator S R) :
    MultiUdpCommunicator A S R := { multi with coms := Function.update multi.coms addr (some com) }

/-- `connect`, for an address that has been resolved; the connection is that of `addr`. -/
def connect (multi : MultiUdpCommunicator A S R) (addr : A) (lastSeen lastSend : Instant) :
    MultiUdpCommunicator A S R :=
  multi.setCom addr ((multi.coms addr).getD { lastSeen, lastSend })

def remove (multi : MultiUdpCommunicator A S R) (addr : A) : Bool × MultiUdpCommunicator A S R :=
  ((multi.coms addr).isSome, { multi with coms := Function.update multi.coms addr none })

def getMut (multi : MultiUdpCommunicator A S R) (addr : A) : Option (InnerUdpCommunicator S R) :=
  multi.coms addr

/-- The caller of `connect` or `get_mut` makes these calls on the connection it is given. -/
def callAt (multi : MultiUdpCommunicator A S R) (addr : A) (cs : List (Call S)) :
    MultiUdpCommunicator A S R :=
  match multi.getMut addr with
  | some com => multi.setCom addr (com.calls cs)
  | none => multi

/-- One round of `for_each`. -/
def handOut (f : Handler W A S R) (st : MultiUdpCommunicator A S R × W) (addr : A) :
    MultiUdpCommunicator A S R × W :=
  match st.1.coms addr with
  | some com => (st.1.setCom addr (com.calls (f addr com st.2).1), (f addr com st.2).2)
  | none => st

/-- `for_each`, and any loop over `iter_mut`. -/
def forEach (order : List A) (f : Handler W A S R) (st : MultiUdpCommunicator A S R × W) :
    MultiUdpCommunicator A S R × W := order.foldl (handOut f) st

def broadcast (order : List A) (message : S) (multi : MultiUdpCommunicator A S R) :
    MultiUdpCommunicator A S R :=
  order.foldl (fun multi addr => match multi.coms addr with
    | some com => multi.setCom addr (com.writeReliable message)
    | none => multi) multi

def broadcastExcept (order : List A) (message : S) (exception : A)
    (multi : MultiUdpCommunicator A S R) : MultiUdpCommunicator A S R :=
  (order.filter fun addr => addr ≠ exception).foldl (fun multi addr => match multi.coms addr with
    | some com => multi.setCom addr (com.writeReliable message)
    | none => multi) multi

/-- One round of `retain`; the closure also says whether the connection stays. -/
def retainOne (filter : A → InnerUdpCommunicator S R → W → List (Call S) × Bool × W)
    (st : MultiUdpCommunicator A S R × W) (addr : A) : MultiUdpCommunicator A S R × W :=
  match st.1.coms addr with
  | some com =>
    let (cs, keep, w) := filter addr com st.2
    (if keep then st.1.setCom addr (com.calls cs) else (st.1.remove addr).2, w)
  | none => st

def retain (order : List A)
    (filter : A → InnerUdpCommunicator S R → W → List (Call S) × Bool × W)
    (st : MultiUdpCommunicator A S R × W) : MultiUdpCommunicator A S R × W :=
  order.foldl (retainOne filter) st

end Loops

/-! ## Sending and receiving -/

section Socket

variable [DecidableEq A] [ByteRepr S] [ByteRepr R] (ctx : MiniUdpContext)

/-- One round of `send`. An error of the connection is logged, and the loop goes on. -/
def sendOne (env : A → SendEnv S) (st : MultiUdpCommunicator A S R × SendLog A S) (addr : A) :
    Res (MultiUdpCommunicator A S R × SendLog A S) :=
  match st.1.coms addr with
  | some inner => do
    let (inner, sent) ← inner.send (crcLink ctx) (env addr) st.1.socket
    let multi := st.1.setCom addr inner
    pure ({ multi with socket := { multi.socket with dataBuffer := sent.2.1.buf } },
      st.2 ++ [(addr, forgetBuffer sent)])
  | none => pure st

def send (order : List A) (env : A → SendEnv S)
    (st : MultiUdpCommunicator A S R × SendLog A S) :
    Res (MultiUdpCommunicator A S R × SendLog A S) := order.foldlM (sendOne ctx env) st

end Socket

end MultiUdpCommunicator

/-- The trait, with its `State`, for a callback that has captured `W`. -/
structure OnReceiveCallback (State W A S R : Type) where
  prepare : W → State × W
  onRecv : A → InnerUdpCommunicator S R → State → W → List (Call S) × State × W
  /-- The loops in it see the connections in the given order. -/
  finish : List A → MultiUdpCommunicator A S R → State → W → MultiUdpCommunicator A S R × W

namespace MultiUdpCommunicator

section Recv

variable {State : Type} [DecidableEq A] [ByteRepr S] [ByteRepr R] (ctx : MiniUdpContext)
  (cb : OnReceiveCallback State W A S R)

/-- One round of the loop in `recv`. -/
def recvRound (st : MultiUdpCommunicator A S R × State × W) (e : Arrival A) :
    Res (MultiUdpCommunicator A S R × State × W) := do
  let (n, dataBuffer) := st.1.socket.dataBuffer.recvFrom e.datagram
  let com := (st.1.coms e.addr).getD e.default
  let com ← com.readPacket ctx n dataBuffer e.now
  let (cs, state, w) := cb.onRecv e.addr com st.2.1 st.2.2
  let multi := st.1.setCom e.addr (com.calls cs)
  pure ({ multi with socket := { multi.socket with dataBuffer } }, state, w)

/-- `recv`, when the socket holds the datagrams `es`. -/
def recvWith (order : List A) (es : List (Arrival A))
    (st : MultiUdpCommunicator A S R × W) : Res (MultiUdpCommunicator A S R × W) := do
  let (state, w) := cb.prepare st.2
  let (multi, state, w) ← es.foldlM (recvRound ctx cb) (st.1, state, w)
  pure (cb.finish order multi state w)

end Recv

end MultiUdpCommunicator

/-! ## The callbacks -/

namespace OnReceiveCallback

/-- The callback `()`. -/
def unit : OnReceiveCallback Unit W A S R where
  prepare w := ((), w)
  onRecv _ _ state w := ([], state, w)
  finish _ multi _ w := (multi, w)

/-- A closure that is handed the connection. -/
def closure (f : Handler W A S R) : OnReceiveCallback Unit W A S R where
  prepare w := ((), w)
  onRecv addr com state w := ((f addr com w).1, state, (f addr com w).2)
  finish _ multi _ w := (multi, w)

/-- A closure that is also handed a list to add requests to, which are met one by one when
everything is received. -/
def delayed {T : Type} (f : A → InnerUdpCommunicator S R → W → List (Call S) × List T × W)
    (meet : List A → MultiUdpCommunicator A S R → T → W → MultiUdpCommunicator A S R × W) :
    OnReceiveCallback (List T) W A S R where
  prepare w := ([], w)
  onRecv addr com state w :=
    let (cs, requests, w) := f addr com w
    (cs, state ++ requests, w)
  finish order multi state w := state.foldl (fun st t => meet order st.1 t st.2) (multi, w)

variable [DecidableEq A]

/-- A closure with a `DelayedBroadcast`. -/
def delayedBroadcast (f : A → InnerUdpCommunicator S R → W → List (Call S) × List S × W) :
    OnReceiveCallback (List S) W A S R :=
  delayed f fun order multi message w => (multi.broadcast order message, w)

/-- A closure with a `DelayedBroadcastExcept`. -/
def delayedBroadcastExcept
    (f : A → InnerUdpCommunicator S R → W → List (Call S) × List (A × S) × W) :
    OnReceiveCallback (List (A × S)) W A S R :=
  delayed f fun order multi request w =>
    (multi.broadcastExcept order request.2 request.1, w)

/-- A closure with a `DelayedForEach`. -/
def delayedForEach
    (f : A → InnerUdpCommunicator S R → W → List (Call S) × List (Handler W A S R) × W) :
    OnReceiveCallback (List (Handler W A S R)) W A S R :=
  delayed f fun order multi g w => MultiUdpCommunicator.forEach order g (multi, w)

end OnReceiveCallback

end MiniUdp
