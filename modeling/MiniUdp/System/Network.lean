import MiniUdp.System.Endpoint

/-!
# Two connected endpoints

The endpoints `a` and `b` and the datagrams on the way in both directions. A
datagram that has been handed to a socket stays on the way for ever, and any of
them may arrive at any time: the network loses, duplicates, delays and reorders.
A state is `Reachable` by steps that a policy allows; the policies say what is
assumed of the network.
-/

namespace MiniUdp

variable {S R Buf D : Type}

structure System (S R Buf D : Type) where
  a : Endpoint S R Buf
  b : Endpoint R S Buf
  ab : List (Datagram D) := []
  ba : List (Datagram D) := []

/-- A step of one of the endpoints. -/
inductive Action (S R : Type) where
  | atA (event : Event S)
  | atB (event : Event R)

/-- Is it a step of the code? Setting the retry counters is not; it stands for retries that never
run out. -/
def Action.ofCode : Action S R → Bool
  | .atA (.topUp _) | .atB (.topUp _) => false
  | _ => true

/-- An endpoint in its default state. -/
def Endpoint.start (socket : UdpCommunicatorSocket Buf) (lastSeen lastSend : Instant) :
    Endpoint S R Buf :=
  { com := { lastSeen, lastSend }, socket }

namespace System

def swap (s : System S R Buf D) : System R S Buf D := ⟨s.b, s.a, s.ba, s.ab⟩

inductive Initial : System S R Buf D → Prop where
  | start (socketA socketB : UdpCommunicatorSocket Buf) (t1 t2 t3 t4 : Instant) :
      Initial { a := .start socketA t1 t2, b := .start socketB t3 t4 }

section Step

variable [ByteRepr S] [ByteRepr R] (la : Link S Buf D) (lb : Link R Buf D)

def stepA (s : System S R Buf D) (event : Event S) : Option (System S R Buf D) :=
  match s.a.step la lb s.ba event with
  | some (a, out) => some { s with a, ab := s.ab ++ out }
  | none => none

def stepB (s : System S R Buf D) (event : Event R) : Option (System S R Buf D) :=
  match s.b.step lb la s.ab event with
  | some (b, out) => some { s with b, ba := s.ba ++ out }
  | none => none

def step (s : System S R Buf D) : Action S R → Option (System S R Buf D)
  | .atA event => s.stepA la lb event
  | .atB event => s.stepB la lb event

/-- Steps one after the other. -/
def steps (s : System S R Buf D) : List (Action S R) → Option (System S R Buf D)
  | [] => some s
  | act :: acts =>
    match s.step la lb act with
    | some t => t.steps acts
    | none => none

/-- The states that steps allowed by a policy lead to from the default state. -/
inductive Reachable (policy : System S R Buf D → Action S R → Prop) : System S R Buf D → Prop where
  | initial {s} : Initial s → Reachable policy s
  | step {s t act} : Reachable policy s → policy s act → s.step la lb act = some t →
      Reachable policy t

/-- The state after a step, or the same one if the step is not possible. -/
def after (s : System S R Buf D) (act : Action S R) : System S R Buf D :=
  (s.step la lb act).getD s

variable {la lb} {policy : System S R Buf D → Action S R → Prop} {s : System S R Buf D}

theorem Reachable.after (h : Reachable la lb policy s) {act : Action S R} (hp : policy s act) :
    Reachable la lb policy (s.after la lb act) := by
  unfold System.after
  cases hs : s.step la lb act with
  | none => exact h
  | some t => exact h.step hp hs

end Step

end System

end MiniUdp
