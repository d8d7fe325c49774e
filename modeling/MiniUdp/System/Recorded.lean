import MiniUdp.Communicator.Single
import MiniUdp.System.AnyNetwork

/-!
# The code and its record

A `UdpCommunicator` is an endpoint without the record of what has happened. A
record can be kept next to it (`Records`): whatever the communicator does, there
are steps of the endpoint that do the same (`Records.step`).
-/

namespace MiniUdp

open InnerUdpCommunicator

variable {S R : Type}

/-! ## One communicator -/

/-- What happens at one end of a connection. -/
inductive ComEvent (S : Type) where
  | calls (cs : List (Call S))
  | receive (d : Incoming)
  | send (env : SendEnv S)

/-- The event, and what has been handed to the socket. -/
def UdpCommunicator.step [ByteRepr S] [ByteRepr R] (ctx : MiniUdpContext)
    (st : UdpCommunicator S R × List (Sent S)) :
    ComEvent S → Res (UdpCommunicator S R × List (Sent S))
  | .calls cs => pure ({ st.1 with inner := st.1.inner.calls cs }, st.2)
  | .receive d => do
    let com ← st.1.receiveOne ctx d
    pure (com, st.2)
  | .send env => do
    let (com, sent) ← st.1.send ctx env
    pure (com, st.2 ++ [sent])

/-- The datagrams of one call of `send`. -/
def handed (sent : Sent S) : List Bytes :=
  sent.2.1.unordered.map Prod.snd ++ sent.2.1.ordered.map Prod.snd ++
    sent.2.1.unreliable.map Prod.snd

def Call.written (channel : Channel) : Call S → List S
  | .write m => if channel = .unreliable then [m] else []
  | .writeReliable m => if channel = .reliable false then [m] else []
  | .writeOrdered m => if channel = .reliable true then [m] else []
  | _ => []

def ComEvent.written (channel : Channel) : ComEvent S → List S
  | .calls cs => cs.flatMap (Call.written channel)
  | _ => []

/-! ## Runs of an endpoint -/

section Run

variable {Buf D : Type} [ByteRepr S] (out : Link S Buf D) (inn : Link R Buf D)
  (incoming : List (Datagram D))

/-- Steps of one endpoint, one after the other. -/
def Endpoint.run (x : Endpoint S R Buf) :
    List (Event S) → Option (Endpoint S R Buf × List (Datagram D))
  | [] => some (x, [])
  | event :: events => do
    let (x, new) ← x.step out inn incoming event
    let (x, new') ← x.run events
    pure (x, new ++ new')

variable {out inn incoming} {x y z : Endpoint S R Buf} {new new' : List (Datagram D)}
  {events events' : List (Event S)}

theorem Endpoint.run_single {event : Event S} (h : x.step out inn incoming event = some (y, new)) :
    x.run out inn incoming [event] = some (y, new) := by
  simp [run, h]

theorem Endpoint.run_append (h : x.run out inn incoming events = some (y, new))
    (h' : y.run out inn incoming events' = some (z, new')) :
    x.run out inn incoming (events ++ events') = some (z, new ++ new') := by
  induction events generalizing x new with
  | nil =>
    cases h
    exact h'
  | cons event events ih =>
    simp only [run, Option.bind_eq_bind, Option.bind_eq_some_iff] at h
    obtain ⟨⟨x1, new1⟩, h1, ⟨x2, new2⟩, h2, h⟩ := h
    cases h
    simp [run, h1, ih h2]

end Run

/-! ## Records -/

/-- The endpoint is the communicator with a record, `flight` all it has handed to the socket. -/
structure Records (x : Endpoint S R DataBuffer) (flight : List (Datagram Bytes))
    (com : UdpCommunicator S R) (sent : List (Sent S)) : Prop where
  inner : x.com = com.inner
  socket : x.socket = com.socket
  flight : flight.map Datagram.body = sent.flatMap handed
  built : ∀ ordered, (x.log ordered).map Built.packet =
    (sent.flatMap Prod.fst).filter (·.ordered == ordered)

/-- Is it a step of the code? -/
def Event.ofCode : Event S → Bool
  | .topUp _ => false
  | _ => true

/-- There are steps of the endpoint that do the same as the code. -/
def Follows [ByteRepr S] (out : Link S DataBuffer Bytes) (inn : Link R DataBuffer Bytes)
    (incoming : List (Datagram Bytes)) (x : Endpoint S R DataBuffer)
    (flight : List (Datagram Bytes)) (written : Channel → List S) (com : UdpCommunicator S R)
    (sent : List (Sent S)) : Prop :=
  ∃ events x' new, x.run out inn incoming events = some (x', new) ∧
    Records x' (flight ++ new) com sent ∧ (∀ event ∈ events, event.ofCode = true) ∧
    ∀ channel, events.flatMap (Event.written channel) = written channel

section Follows

variable [ByteRepr S] {out : Link S DataBuffer Bytes} {inn : Link R DataBuffer Bytes}
  {incoming : List (Datagram Bytes)} {x : Endpoint S R DataBuffer}
  {flight : List (Datagram Bytes)} {com com' : UdpCommunicator S R} {sent sent' : List (Sent S)}

variable (out inn incoming) in
theorem Records.call (h : Records x flight com sent) (c : Call S) :
    ∃ event x', x.step out inn incoming event = some (x', []) ∧
      Records x' flight { com with inner := com.inner.call c } sent ∧ event.ofCode = true ∧
      ∀ channel, event.written channel = c.written channel := by
  obtain ⟨inner, socket, hflight, hbuilt⟩ := h
  cases c with
  | write m =>
    exact ⟨.write m, _, rfl, ⟨congrArg (·.write m) inner, socket, hflight, hbuilt⟩, rfl,
      fun _ => rfl⟩
  | writeReliable m =>
    exact ⟨.writeReliable m, _, rfl,
      ⟨congrArg (·.writeReliable m) inner, socket, hflight, hbuilt⟩, rfl, fun _ => rfl⟩
  | writeOrdered m =>
    exact ⟨.writeOrdered m, _, rfl,
      ⟨congrArg (·.writeOrdered m) inner, socket, hflight, hbuilt⟩, rfl, fun _ => rfl⟩
  | writeHeartbeat =>
    refine ⟨.writeHeartbeat, _, rfl, ⟨congrArg (·.writeHeartbeat) inner, socket, hflight, ?_⟩,
      rfl, fun _ => rfl⟩
    intro ordered
    rw [← hbuilt ordered]
    cases ordered <;> simp [Endpoint.log, Endpoint.build]
  | read =>
    exact ⟨.read, _, rfl, ⟨congrArg (·.read.2) inner, socket, hflight, hbuilt⟩, rfl, fun _ => rfl⟩
  | readOrdered =>
    exact ⟨.readOrdered, _, rfl, ⟨congrArg (·.readOrdered.2) inner, socket, hflight, hbuilt⟩, rfl,
      fun _ => rfl⟩

theorem Records.calls (h : Records x flight com sent) (cs : List (Call S)) :
    Follows out inn incoming x flight (fun channel => cs.flatMap (Call.written channel))
      { com with inner := com.inner.calls cs } sent := by
  induction cs generalizing x com with
  | nil =>
    refine ⟨[], x, [], rfl, ?_, fun _ h => absurd h List.not_mem_nil, fun _ => rfl⟩
    rw [List.append_nil]
    exact h
  | cons c cs ih =>
    obtain ⟨event, x1, h1, hr1, hc1, hw1⟩ := h.call out inn incoming c
    obtain ⟨events, x2, new, h2, hr2, hc2, hw2⟩ := ih hr1
    refine ⟨event :: events, x2, new, ?_, hr2, List.forall_mem_cons.mpr ⟨hc1, hc2⟩,
      fun channel => ?_⟩
    · have := Endpoint.run_append (Endpoint.run_single h1) h2
      simpa using this
    · rw [List.flatMap_cons, hw1, hw2]
      rfl

theorem recvFrom_eq {buf : DataBuffer} {d : Bytes} (h : d.length ≤ MAX_PACKET_LEN) :
    buf.recvFrom d = (d.length, buf.overwrite d) := by
  unfold DataBuffer.recvFrom
  rw [List.take_of_length_le h]

end Follows

section Code

variable [ByteRepr S] [ByteRepr R] {ctx : MiniUdpContext}
  {incoming : List (Datagram Bytes)} {x : Endpoint S R DataBuffer}
  {flight : List (Datagram Bytes)} {com com' : UdpCommunicator S R} {sent sent' : List (Sent S)}

theorem Records.receive (h : Records x flight com sent) {d : Incoming}
    (hd : ∃ d' ∈ incoming, d'.body = d.datagram) (hlen : d.datagram.length ≤ MAX_PACKET_LEN)
    (hr : com.receiveOne ctx d = .ok com') :
    Follows (crcLink ctx) (crcLink ctx) incoming x flight (fun _ => []) com' sent := by
  obtain ⟨d', hd', hbody⟩ := hd
  obtain ⟨place, hplace⟩ := List.mem_iff_getElem?.mp hd'
  obtain ⟨inner, socket, hflight, hbuilt⟩ := h
  unfold UdpCommunicator.receiveOne at hr
  rw [recvFrom_eq hlen] at hr
  obtain ⟨next, hread, hr⟩ := Outcome.bind_eq_ok.mp hr
  cases hr
  obtain ⟨found, hcheck, hnext⟩ := Outcome.bind_eq_ok.mp hread
  have hlink : (crcLink ctx).read d'.body x.socket.dataBuffer =
      (com.socket.dataBuffer.overwrite d.datagram, .ok found) := by
    rw [hbody, socket]
    exact Prod.ext rfl hcheck
  cases found with
  | some packet =>
    cases hnext
    refine ⟨[.deliver place d.now],
      x.receive d'.index packet d.now (com.socket.dataBuffer.overwrite d.datagram), [],
      Endpoint.run_single ?_, ⟨congrArg (·.onPacket d.now packet) inner, ?_, ?_, hbuilt⟩,
      List.forall_mem_singleton.mpr rfl, fun _ => rfl⟩
    · simp only [Endpoint.step, hplace, Endpoint.deliver, hlink]
      rfl
    · simp only [Endpoint.receive, socket]
    · rw [List.append_nil]
      exact hflight
  | none =>
    cases hnext
    refine ⟨[.deliver place d.now], { x with socket := { x.socket with
      dataBuffer := com.socket.dataBuffer.overwrite d.datagram } }, [],
      Endpoint.run_single ?_, ⟨inner, ?_, ?_, hbuilt⟩, List.forall_mem_singleton.mpr rfl,
      fun _ => rfl⟩
    · simp only [Endpoint.step, hplace, Endpoint.deliver, hlink]
      rfl
    · simp only [socket]
    · rw [List.append_nil]
      exact hflight

theorem Records.send (h : Records x flight com sent) {env : SendEnv S} {one : Sent S}
    (hs : com.send ctx env = .ok (com', one)) :
    Follows (crcLink ctx) (crcLink ctx) incoming x flight (fun _ => []) com' (sent ++ [one]) := by
  obtain ⟨inner, socket, hflight, hbuilt⟩ := h
  obtain ⟨⟨next, built, st, error⟩, hsend, hs⟩ := Outcome.bind_eq_ok.mp hs
  cases hs
  obtain ⟨⟨begun, packets⟩, hb, hsend⟩ := Outcome.bind_eq_ok.mp hsend
  obtain ⟨⟨next', st', error'⟩, hp, hsend⟩ := Outcome.bind_eq_ok.mp hsend
  cases hsend
  rw [← inner, ← socket] at hb
  rw [← socket] at hp
  refine ⟨[.send env], _, _, Endpoint.run_single (Endpoint.send_eq_some.mpr
    ⟨begun, built, next, st, error, hb, hp, rfl, rfl⟩), ⟨rfl, ?_, ?_, ?_⟩,
    List.forall_mem_singleton.mpr rfl, fun _ => rfl⟩
  · simp only [Endpoint.sent, Endpoint.build, socket]
  · rw [List.map_append, hflight, List.flatMap_append]
    simp [Endpoint.datagrams, handed, forgetBuffer, SendState.blind, Function.comp_def]
  · intro ordered
    rw [List.flatMap_append, List.filter_append, ← hbuilt ordered]
    cases ordered <;>
      simp [Endpoint.sent, Endpoint.log, Endpoint.build, forgetBuffer, Function.comp_def]

theorem Records.step (h : Records x flight com sent) {ev : ComEvent S}
    (hin : ∀ d, ev = .receive d →
      (∃ d' ∈ incoming, d'.body = d.datagram) ∧ d.datagram.length ≤ MAX_PACKET_LEN)
    (hs : UdpCommunicator.step ctx (com, sent) ev = .ok (com', sent')) :
    Follows (crcLink ctx) (crcLink ctx) incoming x flight (fun channel => ev.written channel)
      com' sent' := by
  cases ev with
  | calls cs =>
    cases hs
    exact h.calls cs
  | receive d =>
    obtain ⟨next, hr, hs⟩ := Outcome.bind_eq_ok.mp hs
    cases hs
    exact h.receive (hin d rfl).1 (hin d rfl).2 hr
  | send env =>
    obtain ⟨⟨next, one⟩, hr, hs⟩ := Outcome.bind_eq_ok.mp hs
    cases hs
    exact h.send hr

omit [ByteRepr S] in
/-- What is read as a packet fits the buffer. -/
theorem length_of_read {d : Bytes} {buf : DataBuffer} {packet : Packet R}
    (h : ((crcLink ctx).read d buf).2 = .ok (some packet)) : d.length ≤ MAX_PACKET_LEN := by
  by_contra hlong
  have hcheck : checkDatagram ctx d.length (buf.overwrite d) = .ok (some packet) := h
  have hpanic : sliceOf (buf.overwrite d).bytes 4 d.length = .panic := by
    rw [sliceOf, (buf.overwrite d).length_eq, if_neg fun hc => hlong hc.2]
  unfold checkDatagram at hcheck
  rw [hpanic] at hcheck
  cases hdebug : ctx.debug <;> simp [hdebug] at hcheck

end Code

end MiniUdp
