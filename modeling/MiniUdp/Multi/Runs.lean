import MiniUdp.Multi.Methods
import MiniUdp.Lib.Family

/-!
# Runs of a communicator with many connections

`Op` is what an application can do to a `MultiUdpCommunicator`, `Runs` any
sequence of it, with any orders of the loops over the hash map. `Op.at` is what
an operation is to one address: a list of things that happen to a connection of
its own (`Peer.step`). A run is a run of machines that share the socket
(`exec_eq`).
-/

namespace MiniUdp

open InnerUdpCommunicator

variable {A S R : Type}

/-! ## One connection -/

/-- What can happen to the connection of an address. -/
inductive PeerEvent (A S : Type) where
  /-- It is made, if there is none. -/
  | connect (lastSeen lastSend : Instant)
  | receive (e : Arrival A)
  | calls (cs : List (Call S))
  | send (env : SendEnv S)
  | remove

/-- The connection of an address, if there is one, and what has been handed to the socket for
it. -/
structure Peer (S R : Type) where
  com : Option (InnerUdpCommunicator S R) := none
  sent : List (Sent S) := []

/-- The connection is the inner part of a `UdpCommunicator` with the socket. -/
def Peer.step [ByteRepr S] [ByteRepr R] (ctx : MiniUdpContext)
    (st : UdpCommunicatorSocket DataBuffer × Peer S R) (ev : PeerEvent A S) :
    Res (UdpCommunicatorSocket DataBuffer × Peer S R) :=
  match ev with
  | .connect lastSeen lastSend =>
    pure (st.1, { st.2 with com := some (st.2.com.getD { lastSeen, lastSend }) })
  | .receive e => do
    let com : UdpCommunicator S R := ⟨st.1, st.2.com.getD e.default⟩
    let com ← com.receiveOne ctx ⟨e.datagram, e.now⟩
    pure (com.socket, { st.2 with com := some com.inner })
  | .calls cs => pure (st.1, { st.2 with com := st.2.com.map (calls · cs) })
  | .send env =>
    match st.2.com with
    | some inner => do
      let com : UdpCommunicator S R := ⟨st.1, inner⟩
      let (com, sent) ← com.send ctx env
      pure (com.socket, { com := some com.inner, sent := st.2.sent ++ [sent] })
    | none => pure st
  | .remove => pure (st.1, { st.2 with com := none })

def Peer.run [ByteRepr S] [ByteRepr R] (ctx : MiniUdpContext)
    (st : UdpCommunicatorSocket DataBuffer × Peer S R) (evs : List (PeerEvent A S)) :
    Res (UdpCommunicatorSocket DataBuffer × Peer S R) := evs.foldlM (Peer.step ctx) st

/-! ## Operations -/

/-- What an application can do. A callback is given by the calls it makes. -/
inductive Op (A S : Type) where
  | connect (addr : A) (lastSeen lastSend : Instant) (cs : List (Call S))
  | recv (es : List (Arrival A × List (Call S)))
  | send (env : A → SendEnv S)
  | broadcast (message : S)
  | broadcastExcept (message : S) (exception : A)
  | forEach (cs : A → List (Call S))
  | retain (cs : A → List (Call S)) (keep : A → Bool)
  | remove (addr : A)
  | getMut (addr : A) (cs : List (Call S))

/-- A closure that makes these calls one time after the other. -/
def replay : Handler (List (List (Call S))) A S R := fun _ _ css => (css.headD [], css.tail)

section Exec

variable [DecidableEq A] [ByteRepr S] [ByteRepr R] (ctx : MiniUdpContext)

/-- An operation that finds the connections in this order. -/
def Op.exec (order : List A) (st : MultiUdpCommunicator A S R × SendLog A S) :
    Op A S → Res (MultiUdpCommunicator A S R × SendLog A S)
  | .connect addr lastSeen lastSend cs =>
    pure ((st.1.connect addr lastSeen lastSend).callAt addr cs, st.2)
  | .recv es => do
    let (multi, _) ← MultiUdpCommunicator.recvWith ctx (.closure replay) order
      (es.map Prod.fst) (st.1, es.map Prod.snd)
    pure (multi, st.2)
  | .send env => MultiUdpCommunicator.send ctx order env st
  | .broadcast message => pure (st.1.broadcast order message, st.2)
  | .broadcastExcept message exception =>
    pure (st.1.broadcastExcept order message exception, st.2)
  | .forEach cs =>
    pure ((MultiUdpCommunicator.forEach order (fun a _ (_ : Unit) => (cs a, ())) (st.1, ())).1,
      st.2)
  | .retain cs keep =>
    pure ((MultiUdpCommunicator.retain order (fun a _ (_ : Unit) => (cs a, keep a, ()))
      (st.1, ())).1, st.2)
  | .remove addr => pure ((st.1.remove addr).2, st.2)
  | .getMut addr cs => pure (st.1.callAt addr cs, st.2)

/-- What an operation is to the connection of `a`. -/
def Op.at (a : A) : Op A S → List (PeerEvent A S)
  | .connect addr lastSeen lastSend cs =>
    if addr = a then [.connect lastSeen lastSend, .calls cs] else []
  | .recv es => (es.filter fun e => e.1.addr = a).flatMap fun e => [.receive e.1, .calls e.2]
  | .send env => [.send (env a)]
  | .broadcast message => [.calls [.writeReliable message]]
  | .broadcastExcept message exception =>
    if a = exception then [] else [.calls [.writeReliable message]]
  | .forEach cs => [.calls (cs a)]
  | .retain cs keep => if keep a then [.calls (cs a)] else [.remove]
  | .remove addr => if addr = a then [.remove] else []
  | .getMut addr cs => if addr = a then [.calls cs] else []

/-- Operations one after the other, each with an order in which the hash map has its connections
then. -/
inductive Runs : MultiUdpCommunicator A S R × SendLog A S → List (Op A S) →
    MultiUdpCommunicator A S R × SendLog A S → Prop where
  | nil (st) : Runs st [] st
  | cons {st st1 st2 op ops} (order : List A) : Family.Enumerates order st.1.coms →
      op.exec ctx order st = .ok st1 → Runs st1 ops st2 → Runs st (op :: ops) st2

variable {ctx}

theorem Runs.trans {st st1 st2 : MultiUdpCommunicator A S R × SendLog A S}
    {ops ops' : List (Op A S)} (h : Runs ctx st ops st1) (h' : Runs ctx st1 ops' st2) :
    Runs ctx st (ops ++ ops') st2 := by
  induction h with
  | nil => exact h'
  | cons order hord he _ ih => exact .cons order hord he (ih h')

end Exec

end MiniUdp
