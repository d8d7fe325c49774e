import MiniUdp.Communicator.Wire

/-!
# Receiving

What one call of `read_packet` does to the state. A reliable packet is either
dropped, which only sets the flag for a duplicate (`onPacket_dropped`), or
taken into the window of its channel (`onPacket_accepted`); which of the two
depends on the number of the packet and the newest number received.
-/

namespace MiniUdp

open Serial

variable {S R : Type}

namespace InnerUdpCommunicator

/-! ## Acknowledgements -/

theorem acknowledge_eq (com : InnerUdpCommunicator S R) (ack : PacketAck) : com.acknowledge ack =
    { com with
      reliableSendPackets :=
        takeAcked ack.reliableNewestReceived ack.reliableAckBits com.reliableSendPackets
      reliableOrderedSendPackets :=
        takeAcked ack.orderedNewestReceived ack.orderedAckBits com.reliableOrderedSendPackets } := by
  unfold acknowledge takeAcked
  generalize List.range 32 = l
  induction l generalizing com with
  | nil => rfl
  | cons i l ih =>
    simp only [List.foldl_cons]
    rw [ih]
    split <;> split <;> rfl

/-! ## Ordered packets -/

/-- The loop over the ordered packets only touches the contents of the window, the head and the
queue. -/
structure OrderedFrame (com com' : InnerUdpCommunicator S R) : Prop where
  eq : com' = { com with
    reliableOrderedReceivedPackets := com'.reliableOrderedReceivedPackets
    orderedReadPacketHead := com'.orderedReadPacketHead
    orderedRecvQueue := com'.orderedRecvQueue }
  newest : com'.reliableOrderedReceivedPackets.newest = com.reliableOrderedReceivedPackets.newest
  received : ∀ id, (com'.reliableOrderedReceivedPackets.get id).isSome =
    (com.reliableOrderedReceivedPackets.get id).isSome

theorem releaseOrdered_frame (ids : List UInt16) (com : InnerUdpCommunicator S R) :
    OrderedFrame com (releaseOrdered ids com) := by
  induction ids generalizing com with
  | nil => exact ⟨rfl, rfl, fun _ => rfl⟩
  | cons id ids ih =>
    unfold releaseOrdered
    split
    · split
      · rename_i packet hget
        have h := ih { com with
          reliableOrderedReceivedPackets :=
            com.reliableOrderedReceivedPackets.set id (some { packet with messages := [] })
          orderedReadPacketHead := com.orderedReadPacketHead + 1
          orderedRecvQueue := com.orderedRecvQueue ++ packet.messages }
        refine ⟨h.eq, h.newest, fun j => ?_⟩
        rw [h.received, RingBuffer.get_set _ _ (RingBuffer.dist_of_get hget)]
        split
        · rename_i e; subst e; simp [hget]
        · rfl
      · exact ih com
    · split
      · exact ⟨rfl, rfl, fun _ => rfl⟩
      · exact ih com

/-! ## Dropped or accepted -/

/-- The newest number received in a channel. -/
def newestReceived (com : InnerUdpCommunicator S R) (ordered : Bool) : UInt16 :=
  if ordered then com.reliableOrderedReceivedPackets.newest else com.reliableReceivedPackets.newest

/-- Is the number in the window of a channel as received? -/
def hasReceived (com : InnerUdpCommunicator S R) (ordered : Bool) (id : UInt16) : Bool :=
  if ordered then (com.reliableOrderedReceivedPackets.get id).isSome
  else (com.reliableReceivedPackets.get id).isSome

/-- Does a reliable packet go past the two tests of `read_packet`? -/
def accepts (com : InnerUdpCommunicator S R) (packet : Packet R) : Bool :=
  !com.isDuplicate packet && !com.isTooOld packet

theorem isDuplicate_eq (com : InnerUdpCommunicator S R) (packet : Packet R) :
    com.isDuplicate packet = com.hasReceived packet.ordered packet.ack.sequenceId := by
  cases h : packet.ordered <;> simp [isDuplicate, hasReceived, h]

theorem isTooOld_eq (com : InnerUdpCommunicator S R) (packet : Packet R) : com.isTooOld packet =
    wrappingGt (com.newestReceived packet.ordered - 31) packet.ack.sequenceId 64 := rfl

theorem onPacket_unreliable {com : InnerUdpCommunicator S R} {packet : Packet R} (now : Instant)
    (h : packet.reliable = false) : com.onPacket now packet =
    { com with
      lastSeen := now
      unorderedRecvQueue := com.unorderedRecvQueue ++ packet.messages }.acknowledge packet.ack := by
  rw [onPacket, if_pos (by simp [h])]
  cases hm : packet.messages with
  | nil => rw [List.append_nil]; rfl
  | cons m ms => rfl

theorem onPacket_dropped {com : InnerUdpCommunicator S R} {packet : Packet R} (now : Instant)
    (hr : packet.reliable = true) (h : com.accepts packet = false) : com.onPacket now packet =
    { com with lastSeen := now, receivedPacketDuplicate := true } := by
  rw [accepts, Bool.and_eq_false_iff, Bool.not_eq_false', Bool.not_eq_false'] at h
  rw [onPacket, if_neg (by simp [hr])]
  by_cases hd : com.isDuplicate packet = true
  · exact if_pos hd
  · exact (if_neg hd).trans (if_pos (h.resolve_left hd))

theorem onPacket_accepted {com : InnerUdpCommunicator S R} {packet : Packet R} (now : Instant)
    (hr : packet.reliable = true) (h : com.accepts packet = true) :
    com.onPacket now packet = { com with lastSeen := now }.accept packet := by
  rw [accepts, Bool.and_eq_true, Bool.not_eq_true', Bool.not_eq_true'] at h
  rw [onPacket, if_neg (by simp [hr])]
  exact (if_neg (Bool.eq_false_iff.mp h.1)).trans (if_neg (Bool.eq_false_iff.mp h.2))

/-- What accepting a packet means for the state. -/
structure Accepted (com : InnerUdpCommunicator S R) (packet : Packet R)
    (com' : InnerUdpCommunicator S R) : Prop where
  received : com'.hasReceived packet.ordered packet.ack.sequenceId = true
  newest : com'.newestReceived packet.ordered = packet.ack.sequenceId
  acknowledged : com'.reliableSendPackets = (com.acknowledge packet.ack).reliableSendPackets ∧
    com'.reliableOrderedSendPackets = (com.acknowledge packet.ack).reliableOrderedSendPackets
  messages : packet.ordered = false →
    com'.unorderedRecvQueue = com.unorderedRecvQueue ++ packet.messages

/-- Dropping a packet changes the time of the last packet and the flag for a duplicate only. -/
def Dropped (com com' : InnerUdpCommunicator S R) : Prop :=
  ∃ lastSeen receivedPacketDuplicate, com' = { com with lastSeen, receivedPacketDuplicate }

theorem Dropped.newestReceived {com com' : InnerUdpCommunicator S R} (h : com.Dropped com')
    (ordered : Bool) : com'.newestReceived ordered = com.newestReceived ordered := by
  obtain ⟨_, _, rfl⟩ := h
  rfl

theorem accept_unordered (com : InnerUdpCommunicator S R) {packet : Packet R}
    (h : packet.ordered = false) : com.accept packet = { com with
      reliableSendPackets := takeAcked packet.ack.reliableNewestReceived
        packet.ack.reliableAckBits com.reliableSendPackets
      reliableOrderedSendPackets := takeAcked packet.ack.orderedNewestReceived
        packet.ack.orderedAckBits com.reliableOrderedSendPackets
      reliableReceivedPackets := com.reliableReceivedPackets.insert packet.ack.sequenceId ()
      unorderedRecvQueue := com.unorderedRecvQueue ++ packet.messages } := by
  rw [accept, if_neg (by simp [h]), acknowledge_eq]

/-- The state in which an accepted ordered packet is stored and nothing is released yet. -/
def stored (com : InnerUdpCommunicator S R) (packet : Packet R) : InnerUdpCommunicator S R :=
  { com with
    reliableSendPackets := takeAcked packet.ack.reliableNewestReceived
      packet.ack.reliableAckBits com.reliableSendPackets
    reliableOrderedSendPackets := takeAcked packet.ack.orderedNewestReceived
      packet.ack.orderedAckBits com.reliableOrderedSendPackets
    reliableOrderedReceivedPackets :=
      com.reliableOrderedReceivedPackets.insert packet.ack.sequenceId packet }

theorem ring_stored (com : InnerUdpCommunicator S R) (packet : Packet R) :
    (com.stored packet).reliableOrderedReceivedPackets =
      com.reliableOrderedReceivedPackets.insert packet.ack.sequenceId packet := by
  simp only [stored]

theorem accept_ordered (com : InnerUdpCommunicator S R) {packet : Packet R}
    (h : packet.ordered = true) : com.accept packet =
    releaseOrdered (com.stored packet).reliableOrderedReceivedPackets.keys (com.stored packet) := by
  rw [accept, if_pos h, acknowledge_eq]
  rfl

theorem accept_ordered_frame (com : InnerUdpCommunicator S R) {packet : Packet R}
    (h : packet.ordered = true) : OrderedFrame (com.stored packet) (com.accept packet) := by
  rw [accept_ordered com h]
  exact releaseOrdered_frame _ _

/-- What is taken out of the two send windows does not depend on the kind of the packet. -/
theorem sendPackets_accept (com : InnerUdpCommunicator S R) (packet : Packet R) :
    (com.accept packet).reliableSendPackets = takeAcked packet.ack.reliableNewestReceived
      packet.ack.reliableAckBits com.reliableSendPackets ∧
    (com.accept packet).reliableOrderedSendPackets = takeAcked packet.ack.orderedNewestReceived
      packet.ack.orderedAckBits com.reliableOrderedSendPackets := by
  cases h : packet.ordered with
  | false => rw [accept_unordered com h]; exact ⟨rfl, rfl⟩
  | true => rw [(com.accept_ordered_frame h).eq]; exact ⟨rfl, rfl⟩

theorem unorderedReceived_accept {com : InnerUdpCommunicator S R} {packet : Packet R}
    (h : packet.ordered = false) : (com.accept packet).reliableReceivedPackets =
    com.reliableReceivedPackets.insert packet.ack.sequenceId () := by
  rw [accept_unordered com h]

/-- The window of the other channel does not change. -/
theorem orderedReceived_accept_other {com : InnerUdpCommunicator S R} {packet : Packet R}
    (h : packet.ordered = false) : (com.accept packet).reliableOrderedReceivedPackets =
    com.reliableOrderedReceivedPackets := by
  rw [accept_unordered com h]

theorem unorderedReceived_accept_other {com : InnerUdpCommunicator S R} {packet : Packet R}
    (h : packet.ordered = true) : (com.accept packet).reliableReceivedPackets =
    com.reliableReceivedPackets := by
  rw [(com.accept_ordered_frame h).eq]
  rfl

/-- The window of the packet's channel after an acceptance is that of an insertion. -/
theorem newestReceived_accept (com : InnerUdpCommunicator S R) (packet : Packet R) :
    (com.accept packet).newestReceived packet.ordered =
      if (com.newestReceived packet.ordered - packet.ack.sequenceId).toNat < 32 then
        com.newestReceived packet.ordered
      else packet.ack.sequenceId := by
  cases h : packet.ordered with
  | false =>
    show (com.accept packet).reliableReceivedPackets.newest = _
    rw [unorderedReceived_accept h, RingBuffer.newest_insert]
    rfl
  | true =>
    show (com.accept packet).reliableOrderedReceivedPackets.newest = _
    rw [(com.accept_ordered_frame h).newest, stored, RingBuffer.newest_insert]
    rfl

/-- An acceptance adds the packet's number and keeps the others of the new window. -/
theorem hasReceived_accept_eq (com : InnerUdpCommunicator S R) (packet : Packet R) (id : UInt16) :
    (com.accept packet).hasReceived packet.ordered id =
      if id = packet.ack.sequenceId then true
      else if ((com.accept packet).newestReceived packet.ordered - id).toNat < 32 then
        com.hasReceived packet.ordered id
      else false := by
  cases h : packet.ordered with
  | false =>
    show ((com.accept packet).reliableReceivedPackets.get id).isSome =
      if _ then true else if ((com.accept packet).reliableReceivedPackets.newest - id).toNat < 32
        then (com.reliableReceivedPackets.get id).isSome else false
    rw [unorderedReceived_accept h, RingBuffer.get_insert]
    split
    · rfl
    · split <;> rfl
  | true =>
    show ((com.accept packet).reliableOrderedReceivedPackets.get id).isSome =
      if _ then true
      else if ((com.accept packet).reliableOrderedReceivedPackets.newest - id).toNat < 32
        then (com.reliableOrderedReceivedPackets.get id).isSome else false
    rw [(com.accept_ordered_frame h).received, (com.accept_ordered_frame h).newest, stored,
      RingBuffer.get_insert]
    split
    · rfl
    · split <;> rfl

theorem hasReceived_accept (com : InnerUdpCommunicator S R) (packet : Packet R) :
    (com.accept packet).hasReceived packet.ordered packet.ack.sequenceId = true := by
  rw [hasReceived_accept_eq, if_pos rfl]

theorem onPacket_of_accepts {com : InnerUdpCommunicator S R} {packet : Packet R} (now : Instant)
    (hr : packet.reliable = true) (h : com.accepts packet = true)
    (hout : 32 ≤ (com.newestReceived packet.ordered - packet.ack.sequenceId).toNat) :
    com.Accepted packet (com.onPacket now packet) := by
  rw [onPacket_accepted now hr h]
  refine ⟨hasReceived_accept _ _, ?_, ?_, fun ho => ?_⟩
  · rw [newestReceived_accept]
    exact if_neg (Nat.not_lt.mpr hout)
  · rw [acknowledge_eq]
    exact sendPackets_accept _ _
  · rw [accept_unordered _ ho]

theorem readPacket_of_check [ByteRepr R] {ctx : MiniUdpContext} {n : Nat} {buf : DataBuffer}
    {packet : Packet R} (com : InnerUdpCommunicator S R) (now : Instant)
    (h : checkDatagram ctx n buf = .ok (some packet)) :
    com.readPacket ctx n buf now = .ok (com.onPacket now packet) := by
  rw [readPacket, h]
  rfl

end InnerUdpCommunicator

end MiniUdp
