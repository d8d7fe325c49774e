import MiniUdp.Multi.Isolation
import MiniUdp.System.Delivery
import MiniUdp.System.Recorded

/-!
# A communicator and its clients

A `MultiUdpCommunicator` in the middle and, at each address, a
`UdpCommunicator` connected to it. The network may lose, repeat, delay and
reorder, but it delivers only what was handed to a socket, and tells the address
it came from. What happens between one client and the connection of its address
is a run of two connected endpoints (`star_projects`), whatever the others do.
So what is put out at one end was written for it at the other (`star_authentic`),
and what is ordered stays in its order (`star_ordered`).
-/

namespace MiniUdp

open InnerUdpCommunicator

variable {A S R : Type}

/-! ## The two ends of a connection -/

section Ends

variable [ByteRepr S] [ByteRepr R] {D Buf : Type} {la : Link S Buf D} {lb : Link R Buf D}
  {s t u : System S R Buf D}

theorem System.steps_append {acts acts' : List (Action S R)} (h : s.steps la lb acts = some t)
    (h' : t.steps la lb acts' = some u) : s.steps la lb (acts ++ acts') = some u := by
  induction acts generalizing s with
  | nil =>
    cases h
    exact h'
  | cons act acts ih =>
    unfold System.steps at h
    split at h
    · rename_i s1 hs1
      simp only [List.cons_append, System.steps, hs1]
      exact ih h
    · cases h

theorem System.steps_atA {events : List (Event S)} {x : Endpoint S R Buf}
    {new : List (Datagram D)} (h : s.a.run la lb s.ba events = some (x, new)) :
    s.steps la lb (events.map .atA) = some { s with a := x, ab := s.ab ++ new } := by
  induction events generalizing s new with
  | nil =>
    cases h
    simp [System.steps]
  | cons event events ih =>
    simp only [Endpoint.run, Option.bind_eq_bind, Option.bind_eq_some_iff] at h
    obtain ⟨⟨x1, new1⟩, h1, ⟨x2, new2⟩, h2, h⟩ := h
    cases h
    have hstep : s.step la lb (.atA event) = some { s with a := x1, ab := s.ab ++ new1 } := by
      simp only [System.step, System.stepA, h1]
    have hrest := ih (s := { s with a := x1, ab := s.ab ++ new1 }) h2
    simp only [List.map_cons, System.steps, hstep, hrest, List.append_assoc]

def Action.swap : Action S R → Action R S
  | .atA event => .atB event
  | .atB event => .atA event

theorem System.steps_swap {acts : List (Action S R)} (h : s.steps la lb acts = some t) :
    s.swap.steps lb la (acts.map Action.swap) = some t.swap := by
  induction acts generalizing s with
  | nil =>
    cases h
    rfl
  | cons act acts ih =>
    unfold System.steps at h
    split at h
    · rename_i s1 hs1
      have hone : s.swap.step lb la act.swap = some s1.swap := by
        cases act with
        | atA event => exact System.stepB_of_stepA hs1
        | atB event => exact System.stepA_of_stepB hs1
      simp only [List.map_cons, System.steps, hone]
      exact ih h
    · cases h

end Ends

/-- A client and the connection of its address, with what they have handed to their sockets, are
the two ends of a run of the code in which `wrote` and `wroteBack` were written. -/
def Joined [ByteRepr S] [ByteRepr R] (ctx : MiniUdpContext) (wrote : Channel → List R)
    (wroteBack : Channel → List S) (client : UdpCommunicator R S × List (Sent R))
    (peer : UdpCommunicator S R × List (Sent S)) : Prop :=
  ∃ s0 acts s, System.Initial s0 ∧ s0.steps (crcLink ctx) (crcLink ctx) acts = some s ∧
    Records s.a s.ab client.1 client.2 ∧ Records s.b s.ba peer.1 peer.2 ∧
    (∀ act ∈ acts, act.ofCode = true) ∧
    (∀ channel, acts.flatMap (Action.writtenA channel) = wrote channel) ∧
    ∀ channel, acts.flatMap (Action.writtenB channel) = wroteBack channel

/-- A client of whose address there is no connection yet. -/
def Alone [ByteRepr S] [ByteRepr R] (ctx : MiniUdpContext) (wrote : Channel → List R)
    (client : UdpCommunicator R S × List (Sent R)) : Prop :=
  ∃ socket lastSeen lastSend events x flight,
    (Endpoint.start socket lastSeen lastSend : Endpoint R S DataBuffer).run (crcLink ctx)
      (crcLink ctx) [] events = some (x, flight) ∧
    Records x flight client.1 client.2 ∧ (∀ event ∈ events, event.ofCode = true) ∧
    ∀ channel, events.flatMap (Event.written channel) = wrote channel

section Joined

variable [ByteRepr S] [ByteRepr R] {ctx : MiniUdpContext} {wrote : Channel → List R}
  {wroteBack : Channel → List S} {client client' : UdpCommunicator R S × List (Sent R)}
  {peer peer' : UdpCommunicator S R × List (Sent S)}

omit [ByteRepr S] [ByteRepr R] in
theorem ofCode_atA {events : List (Event S)} (h : ∀ event ∈ events, event.ofCode = true) :
    ∀ act ∈ events.map (Action.atA (R := R)), act.ofCode = true := by
  intro act hact
  obtain ⟨event, hevent, rfl⟩ := List.mem_map.mp hact
  have hcode := h event hevent
  cases event <;> first | rfl | exact hcode

omit [ByteRepr S] [ByteRepr R] in
theorem written_atA (events : List (Event S)) (channel : Channel) :
    (events.map (Action.atA (R := R))).flatMap (Action.writtenA channel) =
      events.flatMap (Event.written channel) ∧
    (events.map (Action.atA (R := R))).flatMap (Action.writtenB channel) = [] := by
  induction events with
  | nil => exact ⟨rfl, rfl⟩
  | cons event events ih =>
    simp only [List.map_cons, List.flatMap_cons, ih.1, ih.2]
    exact ⟨rfl, rfl⟩

omit [ByteRepr S] [ByteRepr R] in
theorem ofCode_swap (act : Action S R) : act.swap.ofCode = act.ofCode := by
  cases act with
  | atA event | atB event => cases event <;> rfl

/-- The two ends are alike. -/
theorem Joined.swap (h : Joined ctx wrote wroteBack client peer) :
    Joined ctx wroteBack wrote peer client := by
  obtain ⟨s0, acts, s, hi, hsteps, ha, hb, hcode, hw, hwb⟩ := h
  refine ⟨s0.swap, acts.map Action.swap, s.swap, ?_, System.steps_swap hsteps, hb, ha, ?_,
    fun channel => ?_, fun channel => ?_⟩
  · cases hi
    exact .start _ _ _ _ _ _
  · intro act hact
    obtain ⟨act', hact', rfl⟩ := List.mem_map.mp hact
    exact (ofCode_swap act').trans (hcode act' hact')
  · rw [← hwb, List.flatMap_map]
    exact congrArg (acts.flatMap ·) (funext fun act => by cases act <;> rfl)
  · rw [← hw, List.flatMap_map]
    exact congrArg (acts.flatMap ·) (funext fun act => by cases act <;> rfl)

/-- A datagram that was handed to a socket is on the way, and not too long. -/
theorem arrives {M N : Type} [ByteRepr M] {x : Endpoint M N DataBuffer}
    {flight : List (Datagram Bytes)} {com : UdpCommunicator M N} {sent : List (Sent M)}
    (h : Records x flight com sent) (hgenuine : ∀ d ∈ flight, Genuine (crcLink ctx) x d)
    {d : Bytes} (hd : d ∈ sent.flatMap handed) :
    (∃ d' ∈ flight, d'.body = d) ∧ d.length ≤ MAX_PACKET_LEN := by
  rw [← h.flight] at hd
  obtain ⟨d', hd', rfl⟩ := List.mem_map.mp hd
  obtain ⟨b, -, hread⟩ := hgenuine d' hd'
  exact ⟨⟨d', hd', rfl⟩, length_of_read (hread emptyBuffer)⟩

variable (hS : (crcLink (M := S) ctx).Faithful) (hR : (crcLink (M := R) ctx).Faithful)
include hS hR

theorem Joined.stepClient (h : Joined ctx wrote wroteBack client peer) {ev : ComEvent R}
    (hin : ∀ d, ev = .receive d → d.datagram ∈ peer.2.flatMap handed)
    (hs : UdpCommunicator.step ctx client ev = .ok client') :
    Joined ctx (fun channel => wrote channel ++ ev.written channel) wroteBack client' peer := by
  obtain ⟨s0, acts, s, hi, hsteps, ha, hb, hcode, hw, hwb⟩ := h
  have hrecord := hi.onRecord.steps hR hS hsteps
  have hin' : ∀ d, ev = .receive d →
      (∃ d' ∈ s.ba, d'.body = d.datagram) ∧ d.datagram.length ≤ MAX_PACKET_LEN :=
    fun d hd => arrives hb hrecord.ba (hin d hd)
  obtain ⟨events, x, new, hrun, hx, hevents, hev⟩ := ha.step hin' hs
  refine ⟨s0, acts ++ events.map .atA, { s with a := x, ab := s.ab ++ new }, hi,
    System.steps_append hsteps (System.steps_atA hrun), hx, hb,
    List.forall_mem_append.mpr ⟨hcode, ofCode_atA hevents⟩, fun channel => ?_,
    fun channel => ?_⟩
  · rw [List.flatMap_append, (written_atA events channel).1, hw, hev]
  · rw [List.flatMap_append, (written_atA events channel).2, hwb, List.append_nil]

theorem Joined.stepPeer (h : Joined ctx wrote wroteBack client peer) {ev : ComEvent S}
    (hin : ∀ d, ev = .receive d → d.datagram ∈ client.2.flatMap handed)
    (hs : UdpCommunicator.step ctx peer ev = .ok peer') :
    Joined ctx wrote (fun channel => wroteBack channel ++ ev.written channel) client peer' :=
  (h.swap.stepClient hR hS hin hs).swap

omit hS hR

theorem Alone.step (h : Alone ctx wrote client) {ev : ComEvent R} (hin : ∀ d, ev ≠ .receive d)
    (hs : UdpCommunicator.step ctx client ev = .ok client') :
    Alone ctx (fun channel => wrote channel ++ ev.written channel) client' := by
  obtain ⟨socket, lastSeen, lastSend, events, x, flight, hrun, hx, hcode, hw⟩ := h
  have hin' : ∀ d, ev = .receive d → (∃ d' ∈ ([] : List (Datagram Bytes)),
      d'.body = d.datagram) ∧ d.datagram.length ≤ MAX_PACKET_LEN :=
    fun d hd => absurd hd (hin d)
  obtain ⟨events', x', new, hrun', hx', hcode', hw'⟩ := hx.step hin' hs
  refine ⟨socket, lastSeen, lastSend, events ++ events', x', _, Endpoint.run_append hrun hrun',
    hx', List.forall_mem_append.mpr ⟨hcode, hcode'⟩, fun channel => ?_⟩
  rw [List.flatMap_append, hw, hw']

theorem Alone.start (socket : UdpCommunicatorSocket DataBuffer) (lastSeen lastSend : Instant) :
    Alone (S := S) ctx (fun _ => ([] : List R)) (⟨socket, { lastSeen, lastSend }⟩, []) := by
  refine ⟨socket, lastSeen, lastSend, [], _, [], rfl, ⟨rfl, rfl, rfl, ?_⟩,
    fun _ h => absurd h List.not_mem_nil, fun _ => rfl⟩
  intro ordered
  cases ordered <;> rfl

/-- The connection of the address is made. -/
theorem Alone.join (h : Alone ctx wrote client) (own : UdpCommunicatorSocket DataBuffer)
    (lastSeen lastSend : Instant) :
    Joined ctx wrote (fun _ => []) client (⟨own, { lastSeen, lastSend }⟩, []) := by
  obtain ⟨socket, t1, t2, events, x, flight, hrun, hx, hcode, hw⟩ := h
  refine ⟨⟨.start socket t1 t2, .start own lastSeen lastSend, [], []⟩, events.map .atA, _,
    .start _ _ _ _ _ _, System.steps_atA hrun, by simpa using hx, ⟨rfl, rfl, rfl, ?_⟩,
    ofCode_atA hcode, fun channel => ?_, fun channel => (written_atA events channel).2⟩
  · intro ordered
    cases ordered <;> rfl
  · rw [(written_atA events channel).1, hw]

end Joined

/-! ## What can be read -/

/-- At most `2 ^ 15` packets have been built in each reliable channel. -/
def FewPackets (sent : List (Sent S)) : Prop :=
  ∀ ordered, ((sent.flatMap Prod.fst).filter (·.ordered == ordered)).length ≤ 2 ^ 15

instance (sent : List (Sent S)) : Decidable (FewPackets sent) :=
  inferInstanceAs (Decidable (∀ _ : Bool, _))

/-- What waits to be read was written to a channel of its kind. -/
def ReadsOnly (written : Channel → List R) (com : InnerUdpCommunicator S R) : Prop :=
  (∀ m ∈ com.unorderedRecvQueue, m ∈ written .unreliable ∨ m ∈ written (.reliable false)) ∧
    ∀ m ∈ com.orderedRecvQueue, m ∈ written (.reliable true)

section Read

variable [ByteRepr S] [ByteRepr R] {ctx : MiniUdpContext} {wrote : Channel → List R}
  {wroteBack : Channel → List S} {client : UdpCommunicator R S × List (Sent R)}
  {peer : UdpCommunicator S R × List (Sent S)}

omit [ByteRepr S] [ByteRepr R] in
theorem Records.log_le {x : Endpoint S R DataBuffer} {flight : List (Datagram Bytes)}
    {com : UdpCommunicator S R} {sent : List (Sent S)} (h : Records x flight com sent)
    (hfew : FewPackets sent) (ordered : Bool) : (x.log ordered).length ≤ 2 ^ 15 := by
  have hlen := hfew ordered
  rwa [← h.built, List.length_map] at hlen

theorem System.Reachable.steps {Buf D : Type} {la : Link S Buf D} {lb : Link R Buf D}
    {s t : System S R Buf D} (h : System.Reachable la lb (fun _ _ => True) s)
    {acts : List (Action S R)} (hs : s.steps la lb acts = some t) :
    System.Reachable la lb (fun _ _ => True) t := by
  induction acts generalizing s with
  | nil =>
    cases hs
    exact h
  | cons act acts ih =>
    unfold System.steps at hs
    split at hs
    · exact ih (h.step trivial ‹_›) hs
    · cases hs

theorem written_in_order {Buf D : Type} {la : Link S Buf D} {lb : Link R Buf D}
    {s : System S R Buf D} {written : Channel → List S} {written' : Channel → List R}
    (hinv : System.Inv la lb s) (h : System.OnRecord la lb written written' s) :
    s.b.everPutOrdered <+: written (.reliable true) := by
  have hwritten : written (.reliable true) = s.a.wroteOrdered :=
    (h.a.written (.reliable true)).trans (hinv.a.send true).wrote.symm
  rw [hwritten]
  exact hinv.put_in_order

omit [ByteRepr S] [ByteRepr R] in
/-- What waits to be read is a piece of what was written. -/
theorem queue_piece {x : Endpoint S R DataBuffer} {flight : List (Datagram Bytes)}
    {com : UdpCommunicator S R} {sent : List (Sent S)} {messages : List R}
    (h : Records x flight com sent) (hput : x.everPutOrdered <+: messages) :
    com.inner.orderedRecvQueue <:+: messages := by
  obtain ⟨rest, rfl⟩ := hput
  rw [← h.inner]
  exact ⟨x.readOrdered, rest, rfl⟩

omit [ByteRepr R] in
theorem Endpoint.Sender.mem_written {Buf : Type} {x : Endpoint S R Buf}
    {written : Channel → List S} (h : x.Sender written) {channel : Channel} {chunk : List S}
    (hchunk : chunk ∈ x.chunks channel) {m : S} (hm : m ∈ chunk) : m ∈ written channel := by
  rw [h.written channel]
  exact List.mem_append_left _ (List.mem_flatten.mpr ⟨chunk, hchunk, hm⟩)

omit [ByteRepr R] in
theorem Records.readsOnly {x : Endpoint S R DataBuffer} {y : Endpoint R S DataBuffer}
    {flight : List (Datagram Bytes)} {com : UdpCommunicator R S} {sent : List (Sent R)}
    {written : Channel → List S} (h : Records y flight com sent) (hsender : x.Sender written)
    (hputs : y.receiver.PutsOut x) : ReadsOnly written com.inner := by
  obtain ⟨chunks, hchunks, hput⟩ := hputs.unordered
  obtain ⟨ordered, hordered, hputOrdered⟩ := hputs.ordered
  rw [← h.inner]
  constructor
  · intro m hm
    have hin : m ∈ chunks.flatten := hput ▸ List.mem_append_right y.readUnordered hm
    obtain ⟨chunk, hchunk, hm⟩ := List.mem_flatten.mp hin
    exact (hchunks chunk hchunk).imp (hsender.mem_written · hm) (hsender.mem_written · hm)
  · intro m hm
    have hin : m ∈ ordered.flatten := hputOrdered ▸ List.mem_append_right y.readOrdered hm
    obtain ⟨chunk, hchunk, hm⟩ := List.mem_flatten.mp hin
    exact hsender.mem_written (hordered chunk hchunk) hm

variable (hS : (crcLink (M := S) ctx).Faithful) (hR : (crcLink (M := R) ctx).Faithful)
include hS hR

theorem Joined.readsOnly (h : Joined ctx wrote wroteBack client peer) :
    ReadsOnly wroteBack client.1.inner ∧ ReadsOnly wrote peer.1.inner := by
  obtain ⟨s0, acts, s, hi, hsteps, ha, hb, -, hw, hwb⟩ := h
  have hrecord := hi.onRecord.steps hR hS hsteps
  simp only [List.nil_append, hw, hwb] at hrecord
  exact ⟨ha.readsOnly hrecord.b hrecord.toA, hb.readsOnly hrecord.a hrecord.toB⟩

theorem Joined.ordered (h : Joined ctx wrote wroteBack client peer) (hfew : FewPackets client.2)
    (hfew' : FewPackets peer.2) :
    client.1.inner.orderedRecvQueue <:+: wroteBack (.reliable true) ∧
      peer.1.inner.orderedRecvQueue <:+: wrote (.reliable true) := by
  obtain ⟨s0, acts, s, hi, hsteps, ha, hb, -, hw, hwb⟩ := h
  have hrecord := hi.onRecord.steps hR hS hsteps
  have hinv := (System.Reachable.steps (.initial hi) hsteps).inv_of_bounded hR hS
    fun ordered => ⟨ha.log_le hfew ordered, hb.log_le hfew' ordered⟩
  have hba := written_in_order hinv.swap hrecord.swap
  have hab := written_in_order hinv hrecord
  simp only [List.nil_append, hw, hwb] at hab hba
  exact ⟨queue_piece ha hba, queue_piece hb hab⟩

end Read

/-! ## One address -/

/-- What a `PeerEvent` writes, if there is a connection. -/
def PeerEvent.written (channel : Channel) : PeerEvent A S → List S
  | .calls cs => cs.flatMap (Call.written channel)
  | _ => []

def PeerEvent.isRemove : PeerEvent A S → Bool
  | .remove => true
  | _ => false

/-- There is no connection of the client's address yet, or it is the other end of a run. What the
run has written is the last part of `wroteBack`: there was nobody to write to before. -/
inductive Connects [ByteRepr S] [ByteRepr R] (ctx : MiniUdpContext) (wrote : Channel → List R)
    (wroteBack : Channel → List S) (client : UdpCommunicator R S × List (Sent R))
    (own : UdpCommunicatorSocket DataBuffer) : Peer S R → Prop where
  | alone : Alone ctx wrote client → Connects ctx wrote wroteBack client own {}
  | joined {back : Channel → List S} {com : InnerUdpCommunicator S R} {sent : List (Sent S)} :
      (∀ channel, back channel <:+ wroteBack channel) →
      Joined ctx wrote back client (⟨own, com⟩, sent) →
      Connects ctx wrote wroteBack client own ⟨some com, sent⟩

section Connects

variable [ByteRepr S] [ByteRepr R] {ctx : MiniUdpContext} {wrote : Channel → List R}
  {wroteBack back : Channel → List S} {client client' : UdpCommunicator R S × List (Sent R)}
  {own own' : UdpCommunicatorSocket DataBuffer} {peer peer' : Peer S R}

omit [ByteRepr S] [ByteRepr R] in
theorem suffix_written (h : ∀ channel, back channel <:+ wroteBack channel)
    (new : Channel → List S) (channel : Channel) :
    back channel ++ new channel <:+ wroteBack channel ++ new channel := by
  obtain ⟨before, hbefore⟩ := h channel
  exact ⟨before, by rw [← List.append_assoc, hbefore]⟩

theorem UdpCommunicator.step_receive {com com' : UdpCommunicator S R} {sent : List (Sent S)}
    {d : Incoming} (h : com.receiveOne ctx d = .ok com') :
    UdpCommunicator.step ctx (com, sent) (.receive d) = .ok (com', sent) :=
  Outcome.bind_eq_ok.mpr ⟨com', h, rfl⟩

theorem UdpCommunicator.step_send {com com' : UdpCommunicator S R} {sent : List (Sent S)}
    {env : SendEnv S} {one : Sent S} (h : com.send ctx env = .ok (com', one)) :
    UdpCommunicator.step ctx (com, sent) (.send env) = .ok (com', sent ++ [one]) :=
  Outcome.bind_eq_ok.mpr ⟨(com', one), h, rfl⟩

variable (hS : (crcLink (M := S) ctx).Faithful) (hR : (crcLink (M := R) ctx).Faithful)
include hS hR

theorem Connects.stepClient (h : Connects ctx wrote wroteBack client own peer) {ev : ComEvent R}
    (hin : ∀ d, ev = .receive d → d.datagram ∈ peer.sent.flatMap handed)
    (hs : UdpCommunicator.step ctx client ev = .ok client') :
    Connects ctx (fun channel => wrote channel ++ ev.written channel) wroteBack client' own
      peer := by
  cases h with
  | alone h => exact .alone (h.step (fun d hd => absurd (hin d hd) List.not_mem_nil) hs)
  | joined hback h => exact .joined hback (h.stepClient hS hR hin hs)

theorem Connects.event (h : Connects ctx wrote wroteBack client own peer) {ev : PeerEvent A S}
    (hkeep : ev.isRemove = false)
    (hin : ∀ e, ev = .receive e → e.datagram ∈ client.2.flatMap handed)
    (hs : Peer.step ctx (own, peer) ev = .ok (own', peer')) :
    Connects ctx wrote (fun channel => wroteBack channel ++ ev.written channel) client own'
      peer' := by
  cases ev with
  | connect lastSeen lastSend =>
    cases hs
    cases h with
    | alone h => exact .joined (fun _ => List.nil_suffix) (h.join own lastSeen lastSend)
    | joined hback h => exact .joined (fun c => (List.append_nil _).symm ▸ hback c) h
  | receive e =>
    obtain ⟨com', hr, hs⟩ := Outcome.bind_eq_ok.mp hs
    cases hs
    have hin' : ∀ d : Incoming, ComEvent.receive (S := S) ⟨e.datagram, e.now⟩ = .receive d →
        d.datagram ∈ client.2.flatMap handed := by
      rintro d hd
      cases hd
      exact hin e rfl
    cases h with
    | alone h =>
      -- the first datagram from the address makes the connection
      have hj := (h.join own e.lastSeen e.lastSend).stepPeer hS hR hin'
        (UdpCommunicator.step_receive hr)
      exact .joined (fun _ => List.nil_suffix) hj
    | @joined back com sent hback h =>
      have hj := h.stepPeer hS hR hin' (UdpCommunicator.step_receive hr)
      exact .joined (suffix_written hback _) hj
  | calls cs =>
    cases hs
    cases h with
    | alone h => exact .alone h
    | @joined back com sent hback h =>
      have hin' : ∀ d, ComEvent.calls cs = .receive d → d.datagram ∈ client.2.flatMap handed :=
        fun d hd => by cases hd
      have hj := h.stepPeer hS hR hin' rfl
      exact .joined (suffix_written hback _) hj
  | send env =>
    cases h with
    | alone h =>
      cases hs
      exact .alone h
    | @joined back com sent hback h =>
      obtain ⟨⟨com', one⟩, hr, hs⟩ := Outcome.bind_eq_ok.mp hs
      cases hs
      have hj := h.stepPeer hS hR (fun d hd => by cases hd) (UdpCommunicator.step_send hr)
      exact .joined (suffix_written hback _) hj
  | remove => cases hkeep

theorem Connects.run (h : Connects ctx wrote wroteBack client own peer)
    {evs : List (PeerEvent A S)} (hkeep : ∀ ev ∈ evs, ev.isRemove = false)
    (hin : ∀ e, .receive e ∈ evs → e.datagram ∈ client.2.flatMap handed)
    (hs : Peer.run ctx (own, peer) evs = .ok (own', peer')) :
    Connects ctx wrote
      (fun channel => wroteBack channel ++ evs.flatMap (PeerEvent.written channel)) client own'
      peer' := by
  induction evs generalizing wroteBack own peer with
  | nil =>
    cases hs
    simpa using h
  | cons ev evs ih =>
    unfold Peer.run at hs ih
    rw [List.foldlM_cons] at hs
    obtain ⟨⟨own1, peer1⟩, h1, hs⟩ := Outcome.bind_eq_ok.mp hs
    have hev := h.event hS hR (hkeep ev List.mem_cons_self)
      (fun e he => hin e (he ▸ List.mem_cons_self)) h1
    have hrest := ih hev (fun ev' hev' => hkeep ev' (List.mem_cons_of_mem _ hev'))
      (fun e he => hin e (List.mem_cons_of_mem _ he)) hs
    simpa only [List.flatMap_cons, List.append_assoc] using hrest

omit hS hR

/-- A client without a connection is as if one had just been made. -/
theorem Connects.exists_joined (h : Connects ctx wrote wroteBack client own peer) :
    ∃ back com, (∀ channel, back channel <:+ wroteBack channel) ∧
      Joined ctx wrote back client (⟨own, com⟩, peer.sent) ∧
      ∀ com', peer.com = some com' → com' = com := by
  cases h with
  | alone h => exact ⟨_, _, fun _ => List.nil_suffix, h.join own 0 0, fun _ hcom => by cases hcom⟩
  | joined hback h => exact ⟨_, _, hback, h, fun _ hcom => (Option.some.inj hcom).symm⟩

end Connects

/-! ## The star -/

/-- The communicator with all it has sent, and the one at each address with what it has handed to
its socket. -/
structure Star (A S R : Type) where
  server : MultiUdpCommunicator A S R × SendLog A S
  client : A → UdpCommunicator R S × List (Sent R)

inductive StarAction (A S R : Type) where
  | client (a : A) (ev : ComEvent R)
  | server (op : Op A S)

/-- The datagrams an operation takes from the socket. -/
def Op.arrivals : Op A S → List (Arrival A)
  | .recv es => es.map Prod.fst
  | _ => []

def StarAction.written [DecidableEq A] (a : A) (channel : Channel) : StarAction A S R → List R
  | .client b ev => if b = a then ev.written channel else []
  | .server _ => []

def StarAction.writtenTo [DecidableEq A] (a : A) (channel : Channel) : StarAction A S R → List S
  | .client _ _ => []
  | .server op => (op.at a).flatMap (PeerEvent.written channel)

/-- Is the connection of `a` taken away? -/
def StarAction.removes [DecidableEq A] (a : A) : StarAction A S R → Bool
  | .client _ _ => false
  | .server op => (op.at a).any PeerEvent.isRemove

section Star

variable [DecidableEq A] [ByteRepr S] [ByteRepr R] (ctx : MiniUdpContext)

/-- A step of one party. What comes in at one end has been handed to the socket at the other. -/
inductive Star.Step (star : Star A S R) : StarAction A S R → Star A S R → Prop where
  | client {a : A} {ev : ComEvent R} {next : UdpCommunicator R S × List (Sent R)} :
      (∀ d, ev = .receive d → d.datagram ∈ (sentTo star.server.2 a).flatMap handed) →
      UdpCommunicator.step ctx (star.client a) ev = .ok next →
      star.Step (.client a ev) { star with client := Function.update star.client a next }
  | server {op : Op A S} {server : MultiUdpCommunicator A S R × SendLog A S} (order : List A) :
      Family.Enumerates order star.server.1.coms →
      (∀ e ∈ op.arrivals, e.datagram ∈ (star.client e.addr).2.flatMap handed) →
      op.exec ctx order star.server = .ok server →
      star.Step (.server op) { star with server }

/-- Steps one after the other. -/
inductive Star.Runs (star : Star A S R) : List (StarAction A S R) → Star A S R → Prop where
  | nil : star.Runs [] star
  | snoc {acts : List (StarAction A S R)} {act : StarAction A S R} {star' star'' : Star A S R} :
      star.Runs acts star' → star'.Step ctx act star'' → star.Runs (acts ++ [act]) star''

/-- Nothing has been written or sent yet. -/
def Star.start (socket : UdpCommunicatorSocket DataBuffer)
    (sockets : A → UdpCommunicatorSocket DataBuffer) (lastSeen lastSend : A → Instant) :
    Star A S R where
  server := ({ socket }, [])
  client a := (⟨sockets a, { lastSeen := lastSeen a, lastSend := lastSend a }⟩, [])

omit [ByteRepr S] [ByteRepr R] in
theorem mem_arrivals {op : Op A S} {a : A} {e : Arrival A} (h : .receive e ∈ op.at a) :
    e ∈ op.arrivals ∧ e.addr = a := by
  unfold Op.at at h
  cases op with
  | recv es =>
    obtain ⟨x, hx, h⟩ := List.mem_flatMap.mp h
    obtain ⟨hx, ha⟩ := List.mem_filter.mp hx
    obtain he | h := List.mem_cons.mp h
    · obtain rfl : e = x.1 := PeerEvent.receive.inj he
      exact ⟨List.mem_map_of_mem hx, of_decide_eq_true ha⟩
    · cases List.mem_singleton.mp h
  | connect | broadcastExcept | retain | remove | getMut =>
    dsimp only at h
    split at h <;> simp at h
  | send | broadcast | forEach => cases List.mem_singleton.mp h

variable {ctx} {socket : UdpCommunicatorSocket DataBuffer}
  {sockets : A → UdpCommunicatorSocket DataBuffer} {lastSeen lastSend : A → Instant}
  {star star' : Star A S R} {acts : List (StarAction A S R)}

/-- The connections are well kept, and each is the other end of what its client takes part in. -/
structure Star.Paired (ctx : MiniUdpContext) (socket : UdpCommunicatorSocket DataBuffer)
    (acts : List (StarAction A S R)) (star : Star A S R) : Prop where
  kept : WellKept socket star.server
  connects : ∀ a, (∀ act ∈ acts, act.removes a = false) →
    ∃ own : UdpCommunicatorSocket DataBuffer, own.blind = socket.blind ∧
      Connects ctx (fun channel => acts.flatMap (StarAction.written a channel))
        (fun channel => acts.flatMap (StarAction.writtenTo a channel)) (star.client a) own
        ((peers star.server).2 a)

theorem Star.Paired.step [LawfulByteRepr S] (hS : (crcLink (M := S) ctx).Faithful)
    (hR : (crcLink (M := R) ctx).Faithful) (h : star.Paired ctx socket acts)
    {act : StarAction A S R} (hs : star.Step ctx act star') :
    star'.Paired ctx socket (acts ++ [act]) := by
  obtain ⟨kept, connects⟩ := h
  cases hs with
  | @client b ev next hin hev =>
    refine ⟨kept, fun a hkeep => ?_⟩
    obtain ⟨own, hown, hc⟩ := connects a fun act hact => hkeep act (List.mem_append_left _ hact)
    refine ⟨own, hown, ?_⟩
    simp only [List.flatMap_append, List.flatMap_singleton, StarAction.written,
      StarAction.writtenTo, List.append_nil]
    by_cases hb : b = a
    · subst hb
      simpa using hc.stepClient hS hR hin hev
    · simpa [hb, Ne.symm hb] using hc
  | @server op server order hord hin he =>
    refine ⟨kept.exec he, fun a hkeep => ?_⟩
    obtain ⟨own, hown, hc⟩ := connects a fun act hact => hkeep act (List.mem_append_left _ hact)
    -- to the connection of `a` the operation is what it would be with a socket of its own
    obtain ⟨own', hrun⟩ := kept.exec_alone hown hord he a
    have hkeeps := (peerAct_blind (A := A) ctx socket.blind).runAlone_keeps hown
      (kept.sound a) ((runAlone_at a _ _).trans hrun)
    refine ⟨own', hkeeps.1, ?_⟩
    simp only [List.flatMap_append, List.flatMap_singleton, StarAction.written,
      StarAction.writtenTo, List.append_nil]
    refine hc.run hS hR (fun ev hev => ?_) (fun e he => ?_) hrun
    · have hact := hkeep (.server op) (List.mem_append_right _ List.mem_cons_self)
      exact Bool.not_eq_true _ ▸ List.any_eq_false.mp hact ev hev
    · obtain ⟨hmem, rfl⟩ := mem_arrivals he
      exact hin e hmem

theorem Star.Runs.paired [LawfulByteRepr S] (hS : (crcLink (M := S) ctx).Faithful)
    (hR : (crcLink (M := R) ctx).Faithful)
    (h : (Star.start socket sockets lastSeen lastSend).Runs ctx acts star) :
    star.Paired ctx socket acts := by
  induction h with
  | nil =>
    exact ⟨wellKept_bind socket, fun a _ => ⟨socket, rfl,
      .alone (.start (sockets a) (lastSeen a) (lastSend a))⟩⟩
  | snoc _ hs ih => exact ih.step hS hR hs

/-- Whatever happens between the communicator and its other clients, a client and the connection
of its address are the two ends of a run, as long as the connection is not taken away. -/
theorem star_projects [LawfulByteRepr S] (hS : (crcLink (M := S) ctx).Faithful)
    (hR : (crcLink (M := R) ctx).Faithful)
    (h : (Star.start socket sockets lastSeen lastSend).Runs ctx acts star) {a : A}
    (hkeep : ∀ act ∈ acts, act.removes a = false) :
    (star.server.1.coms a = none ∧ sentTo star.server.2 a = [] ∧
      Alone ctx (fun channel => acts.flatMap (StarAction.written a channel)) (star.client a)) ∨
    ∃ com own back, star.server.1.coms a = some com ∧ own.blind = socket.blind ∧
      (∀ channel, back channel <:+ acts.flatMap (StarAction.writtenTo a channel)) ∧
      Joined ctx (fun channel => acts.flatMap (StarAction.written a channel)) back
        (star.client a) (⟨own, com⟩, sentTo star.server.2 a) := by
  obtain ⟨own, hown, hc⟩ := (h.paired hS hR).connects a hkeep
  generalize hpeer : (peers star.server).2 a = peer at hc
  cases hc with
  | alone hc => exact .inl ⟨congrArg Peer.com hpeer, congrArg Peer.sent hpeer, hc⟩
  | @joined back com sent hback hc =>
    obtain rfl : sentTo star.server.2 a = sent := congrArg Peer.sent hpeer
    exact .inr ⟨com, own, back, congrArg Peer.com hpeer, hown, hback, hc⟩

omit [DecidableEq A] [ByteRepr S] [ByteRepr R] in
theorem ReadsOnly.mono {written written' : Channel → List R} {com : InnerUdpCommunicator S R}
    (h : ReadsOnly written com) (hsub : ∀ channel, written channel ⊆ written' channel) :
    ReadsOnly written' com :=
  ⟨fun m hm => (h.1 m hm).imp (hsub _ ·) (hsub _ ·), fun m hm => hsub _ (h.2 m hm)⟩

/-- However the network delivers, a connection puts out nothing but what the client of its address
wrote, and the client nothing but what was written for it. -/
theorem star_authentic [LawfulByteRepr S] (hS : (crcLink (M := S) ctx).Faithful)
    (hR : (crcLink (M := R) ctx).Faithful)
    (h : (Star.start socket sockets lastSeen lastSend).Runs ctx acts star) {a : A}
    (hkeep : ∀ act ∈ acts, act.removes a = false) :
    ReadsOnly (fun channel => acts.flatMap (StarAction.writtenTo a channel))
        (star.client a).1.inner ∧
      ∀ com, star.server.1.coms a = some com →
        ReadsOnly (fun channel => acts.flatMap (StarAction.written a channel)) com := by
  obtain ⟨own, -, hc⟩ := (h.paired hS hR).connects a hkeep
  obtain ⟨back, com, hback, hj, hcom⟩ := hc.exists_joined
  obtain ⟨hclient, hserver⟩ := hj.readsOnly hS hR
  exact ⟨hclient.mono fun channel => (hback channel).subset,
    fun com' hsome => hcom com' hsome ▸ hserver⟩

/-- What waits to be read at one end of a connection, ordered, is a piece of what was written for
it at the other end. -/
theorem star_ordered [LawfulByteRepr S] (hS : (crcLink (M := S) ctx).Faithful)
    (hR : (crcLink (M := R) ctx).Faithful)
    (h : (Star.start socket sockets lastSeen lastSend).Runs ctx acts star) {a : A}
    (hkeep : ∀ act ∈ acts, act.removes a = false) (hfew : FewPackets (star.client a).2)
    (hfew' : FewPackets (sentTo star.server.2 a)) :
    (star.client a).1.inner.orderedRecvQueue <:+:
        acts.flatMap (StarAction.writtenTo a (.reliable true)) ∧
      ∀ com, star.server.1.coms a = some com → com.orderedRecvQueue <:+:
        acts.flatMap (StarAction.written a (.reliable true)) := by
  obtain ⟨own, -, hc⟩ := (h.paired hS hR).connects a hkeep
  obtain ⟨back, com, hback, hj, hcom⟩ := hc.exists_joined
  obtain ⟨hclient, hserver⟩ := hj.ordered hS hR hfew hfew'
  exact ⟨hclient.trans (hback _).isInfix, fun com' hsome => hcom com' hsome ▸ hserver⟩

end Star

/-! ## Two clients that are heard -/

def demoStar : Star Bool Bool Bool :=
  .start pairSocket (fun _ => pairSocket) (fun _ => 0) fun _ => 0

/-- What the network makes of what a client has sent: it arrives in order, once. -/
def arrivalsOf (a : Bool) (sent : List (Sent Bool)) : List (Arrival Bool × List (Call Bool)) :=
  (sent.flatMap handed).map fun d => (⟨a, d, 0, 0, 0⟩, [.writeOrdered false])

/-- Everything the two clients have sent comes in. -/
def heardOp (star : Star Bool Bool Bool) : Op Bool Bool :=
  .recv (arrivalsOf false (star.client false).2 ++ arrivalsOf true (star.client true).2)

def heardActs (star : Star Bool Bool Bool) : List (StarAction Bool Bool Bool) :=
  [.client true (.calls [.writeOrdered true]), .client false (.calls [.writeOrdered false]),
    .client true (.send (System.envAt Bool 0)), .client false (.send (System.envAt Bool 0)),
    .server (heardOp star)]

def clientActs (star : Star Bool Bool Bool) (a : Bool) (ev : ComEvent Bool) :
    Res (Star Bool Bool Bool) := do
  let client ← UdpCommunicator.step (crcContext 1 false) (star.client a) ev
  pure { star with client := Function.update star.client a client }

theorem step_of_clientActs {star star' : Star Bool Bool Bool} {a : Bool} {ev : ComEvent Bool}
    (h : clientActs star a ev = .ok star') (hno : ∀ d, ev ≠ .receive d) :
    star.Step (crcContext 1 false) (.client a ev) star' ∧ star'.server = star.server := by
  obtain ⟨client, hclient, h⟩ := Outcome.bind_eq_ok.mp h
  cases h
  exact ⟨.client (fun d hd => absurd hd (hno d)) hclient, rfl⟩

/-- Both clients write and send, their datagrams come in, and they are answered. -/
def heard : Res (Star Bool Bool Bool × Star Bool Bool Bool) := do
  let first ← clientActs demoStar true (.calls [.writeOrdered true])
  let second ← clientActs first false (.calls [.writeOrdered false])
  let third ← clientActs second true (.send (System.envAt Bool 0))
  let sent ← clientActs third false (.send (System.envAt Bool 0))
  let server ← (heardOp sent).exec (crcContext 1 false) [] sent.server
  pure (sent, { sent with server })

theorem heard_ok : heard.isOkAnd (fun r => decide (FewPackets (r.2.client true).2 ∧
    FewPackets (sentTo r.2.server.2 true) ∧
    (r.2.server.1.coms true).map orderedRecvQueue = some [true] ∧
    (r.2.server.1.coms false).map orderedRecvQueue = some [false])) = true := by decide +kernel

theorem runs_heard : ∃ sent star : Star Bool Bool Bool,
    demoStar.Runs (crcContext 1 false) (heardActs sent) star ∧
      FewPackets (star.client true).2 ∧ FewPackets (sentTo star.server.2 true) ∧
      (star.server.1.coms true).map orderedRecvQueue = some [true] ∧
      (star.server.1.coms false).map orderedRecvQueue = some [false] := by
  obtain ⟨⟨sent, star⟩, hr, hend⟩ := Outcome.isOkAnd_iff.mp heard_ok
  refine ⟨sent, star, ?_, of_decide_eq_true hend⟩
  obtain ⟨first, h1, hr⟩ := Outcome.bind_eq_ok.mp hr
  obtain ⟨second, h2, hr⟩ := Outcome.bind_eq_ok.mp hr
  obtain ⟨third, h3, hr⟩ := Outcome.bind_eq_ok.mp hr
  obtain ⟨fourth, h4, hr⟩ := Outcome.bind_eq_ok.mp hr
  obtain ⟨server, h5, hr⟩ := Outcome.bind_eq_ok.mp hr
  cases hr
  obtain ⟨s1, e1⟩ := step_of_clientActs h1 fun d hd => by cases hd
  obtain ⟨s2, e2⟩ := step_of_clientActs h2 fun d hd => by cases hd
  obtain ⟨s3, e3⟩ := step_of_clientActs h3 fun d hd => by cases hd
  obtain ⟨s4, e4⟩ := step_of_clientActs h4 fun d hd => by cases hd
  have hserver : sent.server = demoStar.server := e4.trans (e3.trans (e2.trans e1))
  refine ((((Star.Runs.nil.snoc s1).snoc s2).snoc s3).snoc s4).snoc
    (Star.Step.server [] ⟨.nil, fun a => by simp [hserver, demoStar, Star.start]⟩ ?_ h5)
  -- what comes in from a client is what that client has sent
  intro e he
  obtain ⟨x, hx, rfl⟩ := List.mem_map.mp he
  rcases List.mem_append.mp hx with hx | hx
  · obtain ⟨d, hd, rfl⟩ := List.mem_map.mp hx
    exact hd
  · obtain ⟨d, hd, rfl⟩ := List.mem_map.mp hx
    exact hd

theorem heardActs_keep (sent : Star Bool Bool Bool) :
    ∀ act ∈ heardActs sent, act.removes true = false := by
  intro act hact
  have hany : ((heardOp sent).at true).any PeerEvent.isRemove = false := by
    simp [heardOp, Op.at, PeerEvent.isRemove]
  simp only [heardActs, List.mem_cons, List.not_mem_nil, or_false] at hact
  obtain rfl | rfl | rfl | rfl | rfl := hact
  · rfl
  · rfl
  · rfl
  · rfl
  · exact hany

theorem star_projects_heard : ∃ sent star : Star Bool Bool Bool,
    demoStar.Runs (crcContext 1 false) (heardActs sent) star ∧
    (star.server.1.coms false).map orderedRecvQueue = some [false] ∧
    ∃ com own back, star.server.1.coms true = some com ∧ com.orderedRecvQueue = [true] ∧
      own.blind = pairSocket.blind ∧
      (∀ channel, back channel <:+ (heardActs sent).flatMap (StarAction.writtenTo true channel)) ∧
      Joined (crcContext 1 false)
        (fun channel => (heardActs sent).flatMap (StarAction.written true channel)) back
        (star.client true) (⟨own, com⟩, sentTo star.server.2 true) := by
  obtain ⟨sent, star, hrun, -, -, hqueue, hother⟩ := runs_heard
  refine ⟨sent, star, hrun, hother, ?_⟩
  obtain ⟨hnone, -⟩ | ⟨com, own, back, hcom, h⟩ :=
    star_projects System.demoLink_faithful System.demoLink_faithful hrun
      (heardActs_keep sent)
  · rw [hnone] at hqueue
    cases hqueue
  · rw [hcom] at hqueue
    exact ⟨com, own, back, hcom, Option.some.inj hqueue, h⟩

theorem star_authentic_heard : ∃ sent star : Star Bool Bool Bool,
    demoStar.Runs (crcContext 1 false) (heardActs sent) star ∧
      (star.server.1.coms false).map orderedRecvQueue = some [false] ∧
      ReadsOnly (fun channel => (heardActs sent).flatMap (StarAction.writtenTo true channel))
        (star.client true).1.inner ∧
      ∀ com, star.server.1.coms true = some com →
        ReadsOnly (fun channel => (heardActs sent).flatMap (StarAction.written true channel))
          com := by
  obtain ⟨sent, star, hrun, -, -, -, hother⟩ := runs_heard
  exact ⟨sent, star, hrun, hother,
    star_authentic System.demoLink_faithful System.demoLink_faithful hrun (heardActs_keep sent)⟩

theorem star_ordered_heard : ∃ sent star : Star Bool Bool Bool,
    demoStar.Runs (crcContext 1 false) (heardActs sent) star ∧
      (star.server.1.coms false).map orderedRecvQueue = some [false] ∧
      (star.client true).1.inner.orderedRecvQueue <:+:
        (heardActs sent).flatMap (StarAction.writtenTo true (.reliable true)) ∧
      ∀ com, star.server.1.coms true = some com → com.orderedRecvQueue <:+:
        (heardActs sent).flatMap (StarAction.written true (.reliable true)) := by
  obtain ⟨sent, star, hrun, hfew, hfew', -, hother⟩ := runs_heard
  exact ⟨sent, star, hrun, hother, star_ordered System.demoLink_faithful System.demoLink_faithful
    hrun (heardActs_keep sent) hfew hfew'⟩

end MiniUdp
