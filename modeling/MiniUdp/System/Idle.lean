import MiniUdp.System.Quiet
import MiniUdp.Communicator.Untrusted

/-!
# Acknowledgements of an idle receiver

An endpoint with nothing to send acknowledges what it received with a
heartbeat, and `send` only builds one when the flag for a duplicate is set.
`Receives` is what happens between two calls of `send`; the flag is set just
when a packet came in that was not new (`Receives.flag`), so that is exactly
when the next `send` acknowledges (`idle_acknowledges_iff`).
-/

namespace MiniUdp

open Serial

namespace InnerUdpCommunicator

variable {S R : Type}

/-! ## Between two calls of `send` -/

/-- A reliable packet that came in, with the states before and after `read_packet`. -/
structure Arrival (S R : Type) where
  before : InnerUdpCommunicator S R
  packet : Packet R
  after : InnerUdpCommunicator S R

/-- Datagrams are received and messages read, from the state `com₀` on. The arrivals are those of
valid reliable packets. -/
inductive Receives [ByteRepr R] (ctx : MiniUdpContext) (com₀ : InnerUdpCommunicator S R) :
    List (Arrival S R) → InnerUdpCommunicator S R → Prop
  | refl : Receives ctx com₀ [] com₀
  | reliable {arrivals com com' n buf now} {packet : Packet R} : Receives ctx com₀ arrivals com →
      checkDatagram ctx n buf = .ok (some packet) → packet.reliable = true →
      com.readPacket ctx n buf now = .ok com' →
      Receives ctx com₀ (arrivals ++ [⟨com, packet, com'⟩]) com'
  | other {arrivals com com' n buf now} {result : Option (Packet R)} :
      Receives ctx com₀ arrivals com → checkDatagram ctx n buf = .ok result →
      (∀ packet, result = some packet → packet.reliable = false) →
      com.readPacket ctx n buf now = .ok com' → Receives ctx com₀ arrivals com'
  | read {arrivals com} : Receives ctx com₀ arrivals com → Receives ctx com₀ arrivals com.read.2
  | readOrdered {arrivals com} : Receives ctx com₀ arrivals com →
      Receives ctx com₀ arrivals com.readOrdered.2

/-- An arrival whose number has been in the window of its channel ever since. -/
def StillIn (arrivals : List (Arrival S R)) (a : Arrival S R) : Prop :=
  ∃ earlier later, arrivals = earlier ++ a :: later ∧ ∀ b ∈ a :: later,
    (b.after.newestReceived a.packet.ordered - a.packet.ack.sequenceId).toNat < 32

/-- No message waits to be sent and no packet for an acknowledgement. -/
structure Resting (com : InnerUdpCommunicator S R) : Prop where
  reliableSendQueue : com.reliableSendQueue = []
  reliableOrderedSendQueue : com.reliableOrderedSendQueue = []
  unreliableSendQueue : com.unreliableSendQueue = []
  reliableSendPackets : com.reliableSendPackets.isEmpty = true
  reliableOrderedSendPackets : com.reliableOrderedSendPackets.isEmpty = true

/-- There is nothing to send. -/
structure Idle (com : InnerUdpCommunicator S R) : Prop extends Resting com where
  unreliableSendPackets : com.unreliableSendPackets = []

/-- The next call of `send` hands a datagram to the socket whose acknowledgement, as any receiver
of the datagram decodes it, names every arrival still in the window. Whether the socket takes the
datagram makes no difference to that. -/
def Acknowledges [ByteRepr S] (ctx : MiniUdpContext) (env : SendEnv S)
    (socket : UdpCommunicatorSocket DataBuffer) (com : InnerUdpCommunicator S R)
    (arrivals : List (Arrival S R)) : Prop :=
  ∃ com' built st error, com.send (crcLink ctx) { env with accepts := fun _ => true } socket =
      .ok (com', built, st, error) ∧
    ∃ d ∈ (st.unordered ++ st.ordered).map Prod.snd ++ st.unreliable.map Prod.snd,
    ∃ packet : Packet S, (∀ buf, ((crcLink ctx).read d buf).2 = .ok (some packet)) ∧
      ∀ a, StillIn arrivals a → packet.ack.names a.packet.ordered a.packet.ack.sequenceId = true

/-! ## Receiving -/

/-- The window of an unordered or ordered channel does not change. -/
def SameReceived (com com' : InnerUdpCommunicator S R) : Prop :=
  com'.receivedPacketDuplicate = com.receivedPacketDuplicate ∧
  (∀ ordered, com'.newestReceived ordered = com.newestReceived ordered) ∧
  ∀ ordered id, com'.hasReceived ordered id = com.hasReceived ordered id

theorem sameReceived_unreliable (com : InnerUdpCommunicator S R) (now : Instant)
    {packet : Packet R} (h : packet.reliable = false) :
    SameReceived com (com.onPacket now packet) := by
  rw [onPacket_unreliable now h, acknowledge_eq]
  exact ⟨rfl, fun ordered => rfl, fun ordered id => rfl⟩

/-- A number in the window is not taken to be older than the window. -/
theorem not_tooOld_of_inWindow {r s : UInt16} (h : (r - s).toNat < 32) :
    wrappingGt (r - 31) s 64 = false := by
  have h64 : (64 : UInt16).toNat = 64 := rfl
  have h31 : (31 : UInt16).toNat = 31 := rfl
  have hd : (s - (r - 31)).toNat = 31 - (r - s).toNat := by
    have hc := dist_comm r s
    rw [dist_sub_right, h31]
    omega
  have hback := dist_comm s (r - 31)
  rw [Bool.eq_false_iff]
  intro hgt
  rw [wrappingGt_iff (by rw [h64]; decide) (Or.inr (by omega)), h64] at hgt
  omega

theorem accept_flag (com : InnerUdpCommunicator S R) (packet : Packet R) :
    (com.accept packet).receivedPacketDuplicate = com.receivedPacketDuplicate := by
  cases h : packet.ordered with
  | false => rw [accept_unordered com h]
  | true =>
    rw [(com.accept_ordered_frame h).eq]
    rfl

/-- The other channel keeps its window when a packet is accepted. -/
theorem hasReceived_accept_other (com : InnerUdpCommunicator S R) {packet : Packet R}
    {ordered : Bool} (h : ordered ≠ packet.ordered) (id : UInt16) :
    (com.accept packet).hasReceived ordered id = com.hasReceived ordered id := by
  cases hp : packet.ordered <;> cases ordered
  · exact absurd hp.symm h
  · exact congrArg (fun r => (RingBuffer.get r id).isSome) (orderedReceived_accept_other hp)
  · exact congrArg (fun r => (RingBuffer.get r id).isSome) (unorderedReceived_accept_other hp)
  · exact absurd hp.symm h

/-- A packet that is in the window after it came in is there as received. -/
theorem hasReceived_onPacket (com : InnerUdpCommunicator S R) (now : Instant) {packet : Packet R}
    (hr : packet.reliable = true)
    (h : ((com.onPacket now packet).newestReceived packet.ordered -
      packet.ack.sequenceId).toNat < 32) :
    (com.onPacket now packet).hasReceived packet.ordered packet.ack.sequenceId = true := by
  cases hacc : com.accepts packet with
  | true =>
    rw [onPacket_accepted now hr hacc]
    exact hasReceived_accept _ packet
  | false =>
    rw [onPacket_dropped now hr hacc] at h ⊢
    have h : (com.newestReceived packet.ordered - packet.ack.sequenceId).toNat < 32 := h
    rw [accepts, isDuplicate_eq, isTooOld_eq, not_tooOld_of_inWindow h, Bool.not_false,
      Bool.and_true, Bool.not_eq_false'] at hacc
    exact hacc

/-- What was received and stays in the window stays received. -/
theorem hasReceived_onPacket_of_stays (com : InnerUdpCommunicator S R) (now : Instant)
    {packet : Packet R} (hr : packet.reliable = true) {ordered : Bool} {id : UInt16}
    (hid : com.hasReceived ordered id = true)
    (h : ((com.onPacket now packet).newestReceived ordered - id).toNat < 32) :
    (com.onPacket now packet).hasReceived ordered id = true := by
  cases hacc : com.accepts packet with
  | false =>
    rw [onPacket_dropped now hr hacc]
    exact hid
  | true =>
    rw [onPacket_accepted now hr hacc] at h ⊢
    by_cases ho : ordered = packet.ordered
    · subst ho
      rw [hasReceived_accept_eq]
      by_cases e : id = packet.ack.sequenceId
      · rw [if_pos e]
      · rw [if_neg e, if_pos h]
        exact hid
    · rw [hasReceived_accept_other _ ho]
      exact hid

theorem flag_onPacket (com : InnerUdpCommunicator S R) (now : Instant) {packet : Packet R}
    (hr : packet.reliable = true) : (com.onPacket now packet).receivedPacketDuplicate =
      (com.receivedPacketDuplicate || !com.accepts packet) := by
  cases hacc : com.accepts packet with
  | false =>
    rw [onPacket_dropped now hr hacc]
    simp
  | true =>
    rw [onPacket_accepted now hr hacc, accept_flag]
    simp

section Receives

variable [ByteRepr R] {ctx : MiniUdpContext} {com₀ com : InnerUdpCommunicator S R}
  {arrivals : List (Arrival S R)}

theorem readPacket_other {com' : InnerUdpCommunicator S R} {n : Nat} {buf : DataBuffer}
    {now : Instant} {result : Option (Packet R)} (hc : checkDatagram ctx n buf = .ok result)
    (hu : ∀ packet, result = some packet → packet.reliable = false)
    (h : com.readPacket ctx n buf now = .ok com') : SameReceived com com' := by
  unfold readPacket at h
  rw [hc, Outcome.bind_ok] at h
  cases result with
  | none =>
    cases h
    exact ⟨rfl, fun _ => rfl, fun _ _ => rfl⟩
  | some packet =>
    cases h
    exact sameReceived_unreliable com now (hu packet rfl)

/-- The flag tells whether a packet came in that was not accepted. -/
theorem Receives.flag (h : Receives ctx com₀ arrivals com)
    (h0 : com₀.receivedPacketDuplicate = false) : com.receivedPacketDuplicate = true ↔
      ∃ a ∈ arrivals, a.before.accepts a.packet = false := by
  induction h with
  | refl => simp [h0]
  | @reliable arrivals com com' n buf now packet _ hc hr he ih =>
    rw [readPacket_of_check com now hc, Outcome.ok.injEq] at he
    rw [← he, flag_onPacket com now hr, Bool.or_eq_true, ih, Bool.not_eq_true']
    simp only [List.mem_append, List.mem_singleton, or_and_right, exists_or, exists_eq_left]
  | other _ hc hu he ih => rw [(readPacket_other hc hu he).1, ih]
  | read _ ih => exact ih
  | readOrdered _ ih => exact ih

omit [ByteRepr R] in
/-- What it takes to be still in the window after one more arrival. -/
theorem StillIn.snoc {a b : Arrival S R} (h : StillIn (arrivals ++ [b]) a) :
    (a = b ∨ StillIn arrivals a) ∧
    (b.after.newestReceived a.packet.ordered - a.packet.ack.sequenceId).toNat < 32 := by
  obtain ⟨earlier, later, e, hstay⟩ := h
  rcases List.eq_nil_or_concat later with rfl | ⟨later, c, rfl⟩
  · obtain ⟨_, hb⟩ := List.append_inj' e rfl
    obtain rfl := List.singleton_inj.mp hb
    exact ⟨.inl rfl, hstay b List.mem_cons_self⟩
  · rw [List.concat_eq_append, ← List.cons_append, ← List.append_assoc] at e
    obtain ⟨he, hb⟩ := List.append_inj' e rfl
    obtain rfl := List.singleton_inj.mp hb
    rw [List.concat_eq_append, ← List.cons_append] at hstay
    refine ⟨.inr ⟨earlier, later, he, fun c hc => hstay c ?_⟩, hstay b ?_⟩
    · exact List.mem_append_left [b] hc
    · exact List.mem_append_right (a :: later) List.mem_cons_self

/-- The arrivals still in the window are there as received. -/
theorem Receives.hasReceived (h : Receives ctx com₀ arrivals com) {a : Arrival S R}
    (ha : StillIn arrivals a) :
    com.hasReceived a.packet.ordered a.packet.ack.sequenceId = true := by
  induction h with
  | refl =>
    obtain ⟨earlier, later, e, _⟩ := ha
    cases earlier <;> cases e
  | @reliable arrivals com com' n buf now packet _ hc hr he ih =>
    rw [readPacket_of_check com now hc, Outcome.ok.injEq] at he
    subst he
    obtain ⟨hcases, hin⟩ := ha.snoc
    rcases hcases with rfl | ha
    · exact hasReceived_onPacket com now hr hin
    · exact hasReceived_onPacket_of_stays com now hr (ih ha) hin
  | other _ hc hu he ih =>
    rw [(readPacket_other hc hu he).2.2]
    exact ih ha
  | read _ ih => exact ih ha
  | readOrdered _ ih => exact ih ha

end Receives

/-! ## Sending -/

theorem retain_of_isEmpty {T σ ε : Type} {r : RingBuffer T 32} (h : r.isEmpty = true)
    (f : UInt16 → T → σ → Outcome ε (Bool × T × σ)) (s : σ) : r.retain f s = .ok (r, s) := by
  have hnone := r.isEmpty_iff.mp h
  have hvisit : ∀ i, RingBuffer.visit f (r, s) i = .ok (r, s) := fun i => by
    by_cases hi : (r.newest - i).toNat < 32
    · rw [RingBuffer.visit_of_get hi, hnone i]
      rfl
    · exact if_neg hi
  unfold RingBuffer.retain
  generalize r.window = l
  induction l with
  | nil => rfl
  | cons i l ih => rw [List.foldlM_cons, hvisit i, Outcome.bind_ok, ih]

section Send

variable [ByteRepr S] {com : InnerUdpCommunicator S R}

omit [ByteRepr S] in
theorem Resting.heartbeatDue (h : com.Resting) :
    com.heartbeatDue = com.receivedPacketDuplicate := by
  unfold InnerUdpCommunicator.heartbeatDue
  rw [h.reliableSendQueue, h.reliableOrderedSendQueue, h.unreliableSendQueue]
  simp

theorem Resting.flush {Buf : Type} (h : com.Resting) (now : Instant)
    (socket : UdpCommunicatorSocket Buf) : com.flush now socket = .ok (com, []) := by
  refine flush_closed now socket h.unreliableSendQueue fun ordered hq => absurd ?_ hq
  cases ordered
  · exact h.reliableSendQueue
  · exact h.reliableOrderedSendQueue

omit [ByteRepr S] in
/-- What is left of `send_packets` is the loop over the unreliable packets. -/
theorem Resting.sendPackets {Buf D : Type} (h : com.Resting) {link : Link S Buf D}
    {env : SendEnv S} {socket : UdpCommunicatorSocket Buf} {st : SendState Buf D}
    (hs : sendUnreliable link env com.unreliableSendPackets 0 { buf := socket.dataBuffer } =
      .ok (st, none)) : ∃ com', com.sendPackets link env socket = .ok (com', st, none) := by
  unfold InnerUdpCommunicator.sendPackets
  rw [retain_of_isEmpty h.reliableSendPackets, Outcome.bind_ok]
  dsimp only
  rw [retain_of_isEmpty h.reliableOrderedSendPackets, Outcome.bind_ok]
  dsimp only
  rw [hs]
  exact ⟨_, rfl⟩

theorem Resting.primed (h : com.Resting) : com.primed.Resting := by
  obtain ⟨id, packets, e, _⟩ := com.primed_eq
  rw [e]
  exact ⟨h.1, h.2, h.3, h.4, h.5⟩

theorem Resting.send {Buf D : Type} (h : com.Resting) (link : Link S Buf D) (env : SendEnv S)
    (socket : UdpCommunicatorSocket Buf) (st : SendState Buf D)
    (hs : sendUnreliable link env com.primed.unreliableSendPackets 0
      { buf := socket.dataBuffer } = .ok (st, none)) :
    ∃ com', com.send link env socket = .ok (com', [], st, none) := by
  obtain ⟨com', he⟩ := h.primed.sendPackets hs
  refine ⟨com', ?_⟩
  unfold InnerUdpCommunicator.send
  rw [beginSend_eq, h.primed.flush, Outcome.bind_ok]
  dsimp only
  rw [he]
  rfl

omit [ByteRepr S] in
theorem Idle.primed_packets (h : com.Idle) : com.primed.unreliableSendPackets =
    if com.receivedPacketDuplicate then [com.heartbeat] else [] := by
  unfold InnerUdpCommunicator.primed
  rw [h.heartbeatDue]
  split
  · exact congrArg (· ++ [com.heartbeat]) h.unreliableSendPackets
  · exact h.unreliableSendPackets

/-- The datagram of a heartbeat. -/
theorem write_heartbeat [LawfulByteRepr S] (ctx : MiniUdpContext) (com : InnerUdpCommunicator S R)
    (buf : DataBuffer) : ∃ buf' d, (crcLink ctx).write com.heartbeat buf = (buf', .ok d) ∧
      ∀ rbuf, ((crcLink ctx).read d rbuf).2 = .ok (some com.heartbeat) := by
  have hlen : Packet.dataLen com.heartbeat.messages ≤ MAX_PACKET_DATA_LEN := Nat.zero_le _
  obtain ⟨buf', hw⟩ := writeDatagram_eq ctx com.heartbeat buf hlen
  refine ⟨buf', datagram ctx com.heartbeat, hw, fun rbuf => ?_⟩
  have hd := length_datagram ctx com.heartbeat
  show checkDatagram ctx (datagram ctx com.heartbeat).length _ = _
  rw [hd]
  refine checkDatagram_eq ctx com.heartbeat (by show (0 : Nat) < 2 ^ 32; decide) ?_
  rw [DataBuffer.bytes_overwrite _ (hd ▸ byteLen_le hlen), ← hd, List.take_left]

end Send

/-- An idle endpoint acknowledges just when its flag is set. -/
theorem Receives.acknowledges_iff [ByteRepr S] [LawfulByteRepr S] [ByteRepr R]
    {ctx : MiniUdpContext} {com₀ com : InnerUdpCommunicator S R} {arrivals : List (Arrival S R)}
    (h : Receives ctx com₀ arrivals com) (hidle : com.Idle) (env : SendEnv S)
    (socket : UdpCommunicatorSocket DataBuffer) :
    Acknowledges ctx env socket com arrivals ↔ com.receivedPacketDuplicate = true := by
  have hpackets := hidle.primed_packets
  cases hflag : com.receivedPacketDuplicate with
  | false =>
    rw [hflag, if_neg Bool.false_ne_true] at hpackets
    obtain ⟨com', hsend⟩ := hidle.send (crcLink ctx) { env with accepts := fun _ => true } socket
      { buf := socket.dataBuffer }
      (by rw [hpackets]; rfl)
    refine iff_of_false ?_ Bool.false_ne_true
    rintro ⟨_, _, st, _, hs, d, hd, _⟩
    rw [hsend] at hs
    cases hs
    exact (List.not_mem_nil hd).elim
  | true =>
    rw [hflag, if_pos rfl] at hpackets
    obtain ⟨buf', d, hw, hread⟩ := com.write_heartbeat ctx socket.dataBuffer
    obtain ⟨com', hsend⟩ := hidle.send (crcLink ctx) { env with accepts := fun _ => true } socket
      { buf := buf', unreliable := [(0, d)], anySend := true }
      (by rw [hpackets]; simp only [sendUnreliable, hw]; rfl)
    refine iff_of_true ⟨com', [], _, none, hsend, d, by simp, com.heartbeat, hread, ?_⟩ rfl
    intro a ha
    exact (names_new com com.unreliableSendPacketId _ _).trans (h.hasReceived ha)

/-- Every call of `send` leaves the flag unset. -/
theorem flag_send [ByteRepr S] {Buf D : Type} {link : Link S Buf D} {env : SendEnv S}
    {com com' : InnerUdpCommunicator S R} {socket : UdpCommunicatorSocket Buf}
    {built : List (Packet S)} {st : SendState Buf D} {error : Option ByteReprError}
    (h : com.send link env socket = .ok (com', built, st, error)) :
    com'.receivedPacketDuplicate = false := by
  simp only [send, beginSend_eq, Outcome.bind_eq_ok, Outcome.pure_def, Outcome.ok.injEq,
    Prod.mk.injEq] at h
  obtain ⟨⟨com1, packets⟩, hflush, ⟨com2, st2, e⟩, hsend, rfl, _⟩ := h
  obtain ⟨_, _, _, _, _, _, _, _, rfl⟩ := sendPackets_eq_ok hsend
  obtain ⟨_, _, _, _, _, _, rfl, _⟩ := flush_eq_ok.mp hflush
  rfl

/-- After a call of `send`, and whatever is received since, the next `send` of an idle endpoint
acknowledges the packets still in the window just when one of the packets was not new. -/
theorem idle_acknowledges_iff [ByteRepr S] [LawfulByteRepr S] [ByteRepr R] (ctx : MiniUdpContext)
    {com₀ com : InnerUdpCommunicator S R} {arrivals : List (Arrival S R)}
    (hsent : com₀.receivedPacketDuplicate = false) (h : Receives ctx com₀ arrivals com)
    (hidle : com.Idle) (env : SendEnv S) (socket : UdpCommunicatorSocket DataBuffer) :
    Acknowledges ctx env socket com arrivals ↔
      ∃ a ∈ arrivals, a.before.accepts a.packet = false :=
  (h.acknowledges_iff hidle env socket).trans (h.flag hsent)

/-! ## Packet 0 at a new connection -/

/-- A new connection after packet 0 came in. -/
def receivedFirst : InnerUdpCommunicator Bool Bool := fresh.onPacket 0 (numbered 0)

theorem receives_first : Receives (crcContext 0 false) fresh
    [⟨fresh, numbered 0, receivedFirst⟩] receivedFirst := by
  have hvalid := check_holding (crcContext 0 false) (numbered_count 0) (numbered_dataLen 0)
  exact Receives.refl.reliable hvalid rfl (readPacket_of_check fresh 0 hvalid)

theorem receives_twice : Receives (crcContext 0 false) fresh
    ([⟨fresh, numbered 0, receivedFirst⟩] ++
      [⟨receivedFirst, numbered 0, receivedFirst.onPacket 0 (numbered 0)⟩])
    (receivedFirst.onPacket 0 (numbered 0)) := by
  have hvalid := check_holding (crcContext 0 false) (numbered_count 0) (numbered_dataLen 0)
  exact receives_first.reliable hvalid rfl (readPacket_of_check receivedFirst 0 hvalid)

/-- The clock stands still and the socket takes everything. -/
def stillEnv : SendEnv Bool := ⟨0, fun _ => 0, fun _ => 0, fun _ => true, true⟩

theorem idle_acknowledges_iff_twice :
    Acknowledges (crcContext 0 false) stillEnv { dataBuffer := emptyBuffer }
      (receivedFirst.onPacket 0 (numbered 0)) ([⟨fresh, numbered 0, receivedFirst⟩] ++
        [⟨receivedFirst, numbered 0, receivedFirst.onPacket 0 (numbered 0)⟩]) ↔
    ∃ a ∈ [(⟨fresh, numbered 0, receivedFirst⟩ : Arrival Bool Bool)] ++
        [⟨receivedFirst, numbered 0, receivedFirst.onPacket 0 (numbered 0)⟩],
      a.before.accepts a.packet = false :=
  idle_acknowledges_iff _ rfl receives_twice
    ⟨⟨rfl, rfl, rfl, by decide +kernel, by decide +kernel⟩, rfl⟩ stillEnv _

/-- One new packet, and the next `send` of the idle receiver hands nothing to the socket. -/
theorem new_packet_unacknowledged :
    Reachable (crcContext 0 false) receivedFirst ∧
    Receives (crcContext 0 false) fresh [⟨fresh, numbered 0, receivedFirst⟩] receivedFirst ∧
    receivedFirst.Idle ∧
    StillIn [⟨fresh, numbered 0, receivedFirst⟩] ⟨fresh, numbered 0, receivedFirst⟩ ∧
    ¬ Acknowledges (crcContext 0 false) stillEnv { dataBuffer := emptyBuffer } receivedFirst
      [⟨fresh, numbered 0, receivedFirst⟩] := by
  have hidle : receivedFirst.Idle :=
    ⟨⟨rfl, rfl, rfl, by decide +kernel, by decide +kernel⟩, rfl⟩
  refine ⟨(Reachable.start 0 0).receive (numbered_count 0) (numbered_dataLen 0) 0, receives_first,
    hidle, ⟨[], [], rfl, fun b hb => ?_⟩, fun h => ?_⟩
  · rw [List.mem_singleton.mp hb]
    decide +kernel
  · rw [receives_first.acknowledges_iff hidle stillEnv] at h
    exact absurd h (by decide +kernel)

end InnerUdpCommunicator

end MiniUdp
