import MiniUdp.Communicator.Single
import MiniUdp.System.Receiving
import MiniUdp.System.LifeCycle

/-!
# Packets always fit

Nothing that an application or the other side does makes a packet that does not
fit a datagram (`PacketsFit`): the packets built by a flush do, and receiving
and resending only take packets away.
-/

namespace MiniUdp.InnerUdpCommunicator

variable {S R : Type}
variable [ByteRepr S] {com com' : InnerUdpCommunicator S R}

theorem packetsFit_default (lastSeen lastSend : Instant) :
    ({ lastSeen, lastSend } : InnerUdpCommunicator S R).PacketsFit where
  unordered id p hp := by simp at hp
  ordered id p hp := by simp at hp
  unreliable _ hp := by cases hp

theorem PacketsFit.call (h : com.PacketsFit) (c : Call S) : (com.call c).PacketsFit := by
  cases c with
  | writeHeartbeat =>
    refine ⟨h.unordered, h.ordered, fun packet hp => ?_⟩
    rcases List.mem_append.mp hp with hp | hp
    · exact h.unreliable packet hp
    · obtain rfl := List.mem_singleton.mp hp
      exact Nat.zero_le _
  | _ => exact ⟨h.unordered, h.ordered, h.unreliable⟩

theorem PacketsFit.calls (h : com.PacketsFit) (cs : List (Call S)) :
    (com.calls cs).PacketsFit := by
  induction cs generalizing com with
  | nil => exact h
  | cons c cs ih => exact ih (h.call c)

theorem PacketsFit.of_shrinks (h : com.PacketsFit)
    (hs : ∀ ordered, Shrinks (com.sendWindow ordered) (com'.sendWindow ordered))
    (hu : ∀ p ∈ com'.unreliableSendPackets, p ∈ com.unreliableSendPackets) :
    com'.PacketsFit where
  unordered id p' hp' := by
    obtain ⟨p, hp, e⟩ := (hs false).pending id p' hp'
    rw [e]
    exact h.unordered id p hp
  ordered id p' hp' := by
    obtain ⟨p, hp, e⟩ := (hs true).pending id p' hp'
    rw [e]
    exact h.ordered id p hp
  unreliable p hp := h.unreliable p (hu p hp)

theorem PacketsFit.onPacket (h : com.PacketsFit) (now : Instant) (packet : Packet R) :
    (com.onPacket now packet).PacketsFit := by
  obtain ⟨hw, -, -, hu⟩ := onPacket_sendSide now com packet
  refine h.of_shrinks (fun ordered => ?_) fun p hp => hu ▸ hp
  rcases hw with ⟨-, hw⟩ | ⟨-, hw⟩
  · rw [hw]
    exact .refl _
  · rw [hw]
    exact shrinks_takeAcked _ _ _

theorem PacketsFit.readPacket [ByteRepr R] (h : com.PacketsFit) {ctx : MiniUdpContext} {n : Nat}
    {buf : DataBuffer} {now : Instant} (hr : com.readPacket ctx n buf now = .ok com') :
    com'.PacketsFit := by
  obtain ⟨packet, -, hr⟩ := Outcome.bind_eq_ok.mp hr
  cases packet with
  | none => exact Outcome.ok.inj hr ▸ h
  | some packet => exact Outcome.ok.inj hr ▸ h.onPacket now packet

omit [ByteRepr S] in
theorem shrinks_retain {Buf D : Type} {link : Link S Buf D} {env : SendEnv S}
    {socket : UdpCommunicatorSocket Buf} {window window' : RingBuffer (PendingPacket S) 32}
    {st st' : SendState Buf D}
    (h : window.retain (resendIfNeeded link env socket) st = .ok (window', st')) :
    Shrinks window window' := by
  obtain ⟨-, hret⟩ := RingBuffer.retain_invariant (P := fun _ _ => True)
    (Q := fun _ (v : PendingPacket S) left => ∀ v', left = some v' → v'.packet = v.packet)
    trivial (fun _ _ _ _ _ => trivial) (fun done i v s keep v' s' _ _ hf => by
      have hafter := (resendIfNeeded_eq_ok hf).1
      refine ⟨trivial, fun w hw => ?_⟩
      unfold AfterCheck at hafter
      rw [hw] at hafter
      split at hafter
      · obtain ⟨n, -, hafter⟩ := hafter
        split at hafter
        · cases hafter
        · rw [Option.some.inj hafter]
      · rw [Option.some.inj hafter]) h
  refine ⟨hret.newest, fun id p' hp' => ?_⟩
  cases hg : window.get id with
  | none => rw [hret.absent id hg] at hp'; cases hp'
  | some p =>
    refine ⟨p, rfl, hret.visited id ?_ p hg p' hp'⟩
    exact RingBuffer.mem_window.mpr (RingBuffer.dist_of_get hg)

theorem PacketsFit.send {Buf D : Type} (h : com.PacketsFit) {link : Link S Buf D}
    {env : SendEnv S} {socket : UdpCommunicatorSocket Buf}
    {sent : List (Packet S) × SendState Buf D × Option ByteReprError}
    (hs : com.send link env socket = .ok (com', sent)) : com'.PacketsFit := by
  obtain ⟨⟨com1, built⟩, hb, hs⟩ := Outcome.bind_eq_ok.mp hs
  obtain ⟨⟨com2, st, error⟩, hp, hs⟩ := Outcome.bind_eq_ok.mp hs
  obtain ⟨u, st1, o, st2, lastSend, hu, ho, -, rfl⟩ := sendPackets_eq_ok hp
  cases hs
  refine (h.beginSend hb).of_shrinks (Bool.forall_bool.mpr ⟨?_, ?_⟩) fun p hp => nomatch hp
  · exact shrinks_retain hu
  · exact shrinks_retain ho

end MiniUdp.InnerUdpCommunicator
