import MiniUdp.Communicator.Partition
import MiniUdp.Communicator.Wire

/-!
# Sending without looking at the buffer

A datagram is assembled in the socket's buffer, over what was there before. On
a link that writes every byte of it, nothing but the buffer itself depends on
that (`send_blind`): a call of `send` is the same call on a socket without a
buffer. The packets an endpoint sends all fit such a link (`PacketsFit`).
-/

namespace MiniUdp

open While InnerUdpCommunicator

variable {S R Buf D : Type} [ByteRepr S]

/-- Of a packet that fits, the datagram does not depend on what the buffer held. -/
def Link.Oblivious (link : Link S Buf D) : Prop :=
  ∀ packet, Packet.dataLen packet.messages ≤ MAX_PACKET_DATA_LEN →
    ∀ buf buf', (link.write packet buf).2 = (link.write packet buf').2

omit [ByteRepr S] in
/-- The link without its buffer: every datagram is written over `buf`. -/
def Link.blind (link : Link S Buf D) (buf : Buf) : Link S Unit D where
  write packet _ := ((), (link.write packet buf).2)
  read d _ := ((), (link.read d buf).2)

/-- The code's own link writes every byte of a datagram. -/
theorem crcLink_oblivious [LawfulByteRepr S] (ctx : MiniUdpContext) :
    (crcLink (M := S) ctx).Oblivious := by
  intro packet hlen buf buf'
  obtain ⟨_, hw⟩ := writeDatagram_eq ctx packet buf hlen
  obtain ⟨_, hw'⟩ := writeDatagram_eq ctx packet buf' hlen
  exact (congrArg Prod.snd hw).trans (congrArg Prod.snd hw').symm

omit [ByteRepr S] in
def UdpCommunicatorSocket.blind (socket : UdpCommunicatorSocket Buf) : UdpCommunicatorSocket Unit :=
  { socket with dataBuffer := () }

omit [ByteRepr S] in
def InnerUdpCommunicator.SendState.blind (st : SendState Buf D) : SendState Unit D :=
  { st with buf := () }

/-! ## Packets that fit -/

/-- Every packet that waits to be sent, or to be acknowledged, fits a datagram. -/
structure InnerUdpCommunicator.PacketsFit (com : InnerUdpCommunicator S R) : Prop where
  unordered : ∀ id p, com.reliableSendPackets.get id = some p →
    Packet.dataLen p.packet.messages ≤ MAX_PACKET_DATA_LEN
  ordered : ∀ id p, com.reliableOrderedSendPackets.get id = some p →
    Packet.dataLen p.packet.messages ≤ MAX_PACKET_DATA_LEN
  unreliable : ∀ packet ∈ com.unreliableSendPackets,
    Packet.dataLen packet.messages ≤ MAX_PACKET_DATA_LEN

namespace InnerUdpCommunicator

variable {com com' : InnerUdpCommunicator S R}

theorem packetsFit_of_flushed {now : Instant} {retries : Nat} {received : RingBuffer Unit 32}
    {orderedReceived : RingBuffer (Packet R) 32} {ordered : Bool}
    {window : RingBuffer (PendingPacket S) 32} {queue : List S} {st : FlushState S}
    (hfits : ∀ id p, window.get id = some p →
      Packet.dataLen p.packet.messages ≤ MAX_PACKET_DATA_LEN)
    (h : flushMessages now retries received orderedReceived ordered window queue = .ok st)
    (id : UInt16) (p : PendingPacket S) (hp : st.sendPackets.get id = some p) :
    Packet.dataLen p.packet.messages ≤ MAX_PACKET_DATA_LEN := by
  obtain ⟨st', hst', hspec⟩ := flushMessages_spec now retries received orderedReceived ordered
    window queue
  obtain rfl : st = st' := Outcome.ok.inj (h.symm.trans hst')
  rcases (hspec.pending id p).mp hp with hp | ⟨j, packet, hj, -, rfl⟩
  · exact hfits id p hp
  · exact Packed.dataLen_le hspec.packed packet (List.mem_of_getElem? hj)

theorem packetsFit_of_drained {received : RingBuffer Unit 32}
    {orderedReceived : RingBuffer (Packet R) 32} {st st' : UnreliableState S}
    (hfits : ∀ packet ∈ st.sendPackets, Packet.dataLen packet.messages ≤ MAX_PACKET_DATA_LEN)
    (h : flushUnreliable received orderedReceived st = .ok st') :
    ∀ packet ∈ st'.sendPackets, Packet.dataLen packet.messages ≤ MAX_PACKET_DATA_LEN := by
  unfold flushUnreliable at h
  split at h
  · rename_i st'' hrun
    obtain rfl := Outcome.ok.inj h
    refine (runWhile_invariant (P := fun st : UnreliableState S => ∀ packet ∈ st.sendPackets,
      Packet.dataLen packet.messages ≤ MAX_PACKET_DATA_LEN) ?_ hfits hrun).1
    intro st1 hst1 _ packet hp
    rcases List.mem_append.mp hp with hp | hp
    · exact hst1 packet hp
    · obtain rfl := List.mem_singleton.mp hp
      exact dataLen_includedMsgs MAX_PACKET_DATA_LEN st1.sendQueue
  · exact nomatch h

theorem PacketsFit.flush (h : com.PacketsFit) {now : Instant} {socket : UdpCommunicatorSocket Buf}
    {built : List (Packet S)} (hs : com.flush now socket = .ok (com', built)) :
    com'.PacketsFit := by
  obtain ⟨unordered, hu, hs⟩ := Outcome.bind_eq_ok.mp hs
  obtain ⟨ordered, ho, hs⟩ := Outcome.bind_eq_ok.mp hs
  obtain ⟨unreliable, hl, hs⟩ := Outcome.bind_eq_ok.mp hs
  cases hs
  exact ⟨packetsFit_of_flushed h.unordered hu, packetsFit_of_flushed h.ordered ho,
    packetsFit_of_drained h.unreliable hl⟩

theorem PacketsFit.beginSend (h : com.PacketsFit) {now : Instant}
    {socket : UdpCommunicatorSocket Buf} {built : List (Packet S)}
    (hs : com.beginSend now socket = .ok (com', built)) : com'.PacketsFit := by
  unfold InnerUdpCommunicator.beginSend at hs
  refine PacketsFit.flush ?_ hs
  split
  · refine ⟨h.unordered, h.ordered, fun packet hp => ?_⟩
    rcases List.mem_append.mp hp with hp | hp
    · exact h.unreliable packet hp
    · obtain rfl := List.mem_singleton.mp hp
      exact Nat.zero_le _
  · exact ⟨h.unordered, h.ordered, h.unreliable⟩

end InnerUdpCommunicator

/-! ## Sending -/

section Blind

variable {link : Link S Buf D} (h : link.Oblivious) (env : SendEnv S)
  (socket : UdpCommunicatorSocket Buf)

omit [ByteRepr S] in
theorem SendState.blind_hand (st : SendState Buf D) (ordered : Bool) (id : UInt16) (d : D) :
    (st.hand ordered id d).blind = st.blind.hand ordered id d := by
  cases ordered <;> rfl

include h

theorem resendIfNeeded_blind (buf : Buf) (index : UInt16)
    {pending : PendingPacket S}
    (hfits : Packet.dataLen pending.packet.messages ≤ MAX_PACKET_DATA_LEN)
    (st : SendState Buf D) :
    Prod.map id (Prod.map id SendState.blind) <$>
      resendIfNeeded link env socket index pending st =
      resendIfNeeded (link.blind buf) env socket.blind index pending st.blind := by
  have hdue : resendDue env socket.blind pending = resendDue env socket pending := rfl
  have hwrite := h pending.packet hfits st.buf buf
  unfold resendIfNeeded
  rw [hdue]
  split
  · dsimp only [Link.blind]
    rw [← hwrite]
    cases hd : link.write pending.packet st.buf with
    | mk buf' d =>
      cases d with
      | ok d =>
        dsimp only
        have hhand : (if env.accepts pending.packet
              then { st with buf := buf' }.hand pending.packet.ordered index d
              else { st with buf := buf' } : SendState Buf D).blind =
            if env.accepts pending.packet then st.blind.hand pending.packet.ordered index d
              else st.blind := by
          split
          · exact SendState.blind_hand _ _ _ _
          · rfl
        cases decrementRetries env.overflowChecks pending.remainingRetries with
        | ok n => exact congrArg (fun st => Outcome.ok (_, _, st)) hhand
        | err | panic | hang => rfl
      | err | panic | hang => rfl
  · rfl

theorem sendUnreliable_blind (buf : Buf) {packets : List (Packet S)}
    (hfits : ∀ packet ∈ packets, Packet.dataLen packet.messages ≤ MAX_PACKET_DATA_LEN) (place : Nat)
    (st : SendState Buf D) :
    Prod.map SendState.blind id <$> sendUnreliable link env packets place st =
      sendUnreliable (link.blind buf) env packets place st.blind := by
  induction packets generalizing place st with
  | nil => rfl
  | cons packet packets ih =>
    have hwrite := h packet (hfits packet List.mem_cons_self) st.buf buf
    have hrest := ih fun p hp => hfits p (List.mem_cons_of_mem packet hp)
    unfold sendUnreliable
    dsimp only [Link.blind]
    rw [← hwrite]
    cases hd : link.write packet st.buf with
    | mk buf' d =>
      cases d with
      | ok d =>
        dsimp only
        rw [hrest]
        split <;> rfl
      | err | panic | hang => rfl

/-- What comes of a call of `send_packets`, but for the buffer. -/
def InnerUdpCommunicator.forgetBuffer {α : Type} (r : α × SendState Buf D × Option ByteReprError) :
    α × SendState Unit D × Option ByteReprError := (r.1, r.2.1.blind, r.2.2)

theorem sendPackets_blind (buf : Buf) {com : InnerUdpCommunicator S R}
    (hfits : com.PacketsFit) :
    forgetBuffer <$> com.sendPackets link env socket =
      com.sendPackets (link.blind buf) env socket.blind := by
  have hu := RingBuffer.retain_map
    (fun i v st hv => resendIfNeeded_blind h env socket buf i (hfits.unordered i v hv) st)
    { buf := socket.dataBuffer }
  unfold InnerUdpCommunicator.sendPackets
  change _ = (com.reliableSendPackets.retain (resendIfNeeded (link.blind buf) env socket.blind)
    (SendState.blind { buf := socket.dataBuffer }) >>= _)
  rw [← hu]
  cases com.reliableSendPackets.retain (resendIfNeeded link env socket)
    { buf := socket.dataBuffer } with
  | ok out =>
    obtain ⟨unordered, st⟩ := out
    have ho := RingBuffer.retain_map
      (fun i v st hv => resendIfNeeded_blind h env socket buf i (hfits.ordered i v hv) st) st
    dsimp only [Outcome.bind_ok, Outcome.map_ok, Prod.map, id_eq]
    rw [← ho]
    cases com.reliableOrderedSendPackets.retain (resendIfNeeded link env socket) st with
    | ok out =>
      obtain ⟨ordered, st⟩ := out
      dsimp only [Outcome.bind_ok, Outcome.map_ok, Prod.map, id_eq]
      rw [← sendUnreliable_blind h env buf hfits.unreliable]
      cases sendUnreliable link env com.unreliableSendPackets 0 st with
      | ok out =>
        obtain ⟨st, error⟩ := out
        cases error <;> rfl
      | err | panic | hang => rfl
    | err | panic | hang => rfl
  | err | panic | hang => rfl

/-- A call of `send` is the call without a buffer. -/
theorem send_blind (buf : Buf) {com : InnerUdpCommunicator S R} (hfits : com.PacketsFit) :
    Prod.map id forgetBuffer <$> com.send link env socket =
      com.send (link.blind buf) env socket.blind := by
  have hbegin : com.beginSend env.now socket.blind = com.beginSend env.now socket := rfl
  unfold InnerUdpCommunicator.send
  rw [hbegin]
  cases hb : com.beginSend env.now socket with
  | ok out =>
    obtain ⟨com', built⟩ := out
    dsimp only [Outcome.bind_ok]
    rw [← sendPackets_blind h env socket buf (hfits.beginSend hb)]
    cases com'.sendPackets link env socket with
    | ok out => rfl
    | err | panic | hang => rfl
  | err | panic | hang => rfl

end Blind

end MiniUdp
