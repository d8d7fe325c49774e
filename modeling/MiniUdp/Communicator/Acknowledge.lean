import MiniUdp.Communicator.Receive
import MiniUdp.RingBuffer.Refinement

/-!
# What an acknowledgement does

`acknowledge` forgets the pending packets that the acknowledgement names and
touches nothing else (`acknowledge_forgets`). For an acknowledgement made from
two receive windows these are the packets whose numbers are bound there
(`acknowledge_new_forgets`). What is forgotten adds up over a list of
acknowledgements, so neither their order nor a repetition matters
(`acknowledge_spec`).
-/

namespace MiniUdp

namespace InnerUdpCommunicator

variable {S R : Type}

/-- `com'` is `com` without the pending packets with numbers in `unordered` and `ordered`. -/
structure Forgets (com com' : InnerUdpCommunicator S R) (unordered ordered : UInt16 → Prop) :
    Prop where
  frame : com' = { com with
    reliableSendPackets := com'.reliableSendPackets
    reliableOrderedSendPackets := com'.reliableOrderedSendPackets }
  newest : com'.reliableSendPackets.newest = com.reliableSendPackets.newest
  newestOrdered : com'.reliableOrderedSendPackets.newest = com.reliableOrderedSendPackets.newest
  kept : ∀ id p, com'.reliableSendPackets.get id = some p ↔
    com.reliableSendPackets.get id = some p ∧ ¬ unordered id
  keptOrdered : ∀ id p, com'.reliableOrderedSendPackets.get id = some p ↔
    com.reliableOrderedSendPackets.get id = some p ∧ ¬ ordered id

namespace Forgets

variable {com com1 com2 : InnerUdpCommunicator S R} {u u' o o' : UInt16 → Prop}

theorem refl (com : InnerUdpCommunicator S R) :
    Forgets com com (fun _ => False) fun _ => False where
  frame := rfl
  newest := rfl
  newestOrdered := rfl
  kept _ _ := by rw [not_false_eq_true, and_true]
  keptOrdered _ _ := by rw [not_false_eq_true, and_true]

theorem trans (h : Forgets com com1 u o) (h' : Forgets com1 com2 u' o') :
    Forgets com com2 (fun id => u id ∨ u' id) fun id => o id ∨ o' id where
  frame := by
    rw [h'.frame, h.frame]
  newest := h'.newest.trans h.newest
  newestOrdered := h'.newestOrdered.trans h.newestOrdered
  kept id p := by rw [h'.kept, h.kept, not_or, and_assoc]
  keptOrdered id p := by rw [h'.keptOrdered, h.keptOrdered, not_or, and_assoc]

theorem congr (h : Forgets com com1 u o) (hu : ∀ id, u id ↔ u' id) (ho : ∀ id, o id ↔ o' id) :
    Forgets com com1 u' o' := by
  obtain rfl : u = u' := funext fun id => propext (hu id)
  obtain rfl : o = o' := funext fun id => propext (ho id)
  exact h

/-- What is left is determined by what is forgotten. -/
theorem unique (h1 : Forgets com com1 u o) (h2 : Forgets com com2 u o) : com1 = com2 := by
  have hu : com1.reliableSendPackets = com2.reliableSendPackets := by
    refine RingBuffer.ext_get (h1.newest.trans h2.newest.symm) fun id => Option.ext fun p => ?_
    rw [h1.kept, h2.kept]
  have ho : com1.reliableOrderedSendPackets = com2.reliableOrderedSendPackets := by
    refine RingBuffer.ext_get (h1.newestOrdered.trans h2.newestOrdered.symm) fun id =>
      Option.ext fun p => ?_
    rw [h1.keptOrdered, h2.keptOrdered]
  rw [h1.frame, h2.frame, hu, ho]

end Forgets

theorem get_takeAcked_eq_some {T : Type} {newest : UInt16} {bits : UInt32} {r : RingBuffer T 32}
    {id : UInt16} {x : T} : (takeAcked newest bits r).get id = some x ↔
      r.get id = some x ∧ ¬ covers newest bits id = true := by
  rw [get_takeAcked]
  by_cases h : covers newest bits id = true <;> simp [h]

theorem acknowledge_forgets (com : InnerUdpCommunicator S R) (ack : PacketAck) :
    Forgets com (com.acknowledge ack)
      (fun id => covers ack.reliableNewestReceived ack.reliableAckBits id = true)
      fun id => covers ack.orderedNewestReceived ack.orderedAckBits id = true := by
  rw [acknowledge_eq]
  exact ⟨rfl, newest_takeAcked _ _ _, newest_takeAcked _ _ _, fun _ _ => get_takeAcked_eq_some,
    fun _ _ => get_takeAcked_eq_some⟩

theorem acknowledge_new_forgets (com : InnerUdpCommunicator S R) {T : Type} (sequenceId : UInt16)
    (received : RingBuffer Unit 32) (orderedReceived : RingBuffer T 32) :
    Forgets com (com.acknowledge (.new sequenceId received orderedReceived))
      (fun id => received.get id ≠ none) fun id => orderedReceived.get id ≠ none := by
  refine (com.acknowledge_forgets _).congr (fun id => ?_) fun id => ?_
  · exact Bool.eq_iff_iff.mp (covers_ackBits received id) |>.trans Option.isSome_iff_ne_none
  · exact Bool.eq_iff_iff.mp (covers_ackBits orderedReceived id) |>.trans
      Option.isSome_iff_ne_none

/-- Over a list of acknowledgements, the packets that one of them names are forgotten. -/
theorem foldl_acknowledge_forgets (acks : List PacketAck) (com : InnerUdpCommunicator S R) :
    Forgets com (acks.foldl acknowledge com)
      (fun id => ∃ ack ∈ acks, covers ack.reliableNewestReceived ack.reliableAckBits id = true)
      fun id => ∃ ack ∈ acks, covers ack.orderedNewestReceived ack.orderedAckBits id = true := by
  induction acks generalizing com with
  | nil => exact (Forgets.refl com).congr (fun _ => by simp) fun _ => by simp
  | cons ack acks ih =>
    refine ((com.acknowledge_forgets ack).trans (ih (com.acknowledge ack))).congr ?_ ?_
    · exact fun id => by rw [List.exists_mem_cons_iff]
    · exact fun id => by rw [List.exists_mem_cons_iff]

/-- An acknowledgement made from the other side's receive windows forgets exactly the pending
packets received there, and the same acknowledgements in any order and number leave the same
state. -/
theorem acknowledge_spec {T : Type} (com : InnerUdpCommunicator S R) :
    (∀ (sequenceId : UInt16) (received : RingBuffer Unit 32) (orderedReceived : RingBuffer T 32),
      Forgets com (com.acknowledge (.new sequenceId received orderedReceived))
        (fun id => received.get id ≠ none) fun id => orderedReceived.get id ≠ none) ∧
    ∀ acks acks' : List PacketAck, (∀ ack, ack ∈ acks ↔ ack ∈ acks') →
      acks.foldl acknowledge com = acks'.foldl acknowledge com := by
  refine ⟨fun sequenceId received orderedReceived =>
    com.acknowledge_new_forgets sequenceId received orderedReceived, fun acks acks' h => ?_⟩
  refine (com.foldl_acknowledge_forgets acks).unique ?_
  refine (com.foldl_acknowledge_forgets acks').congr ?_ ?_
  · exact fun id => exists_congr fun ack => and_congr_left' (h ack).symm
  · exact fun id => exists_congr fun ack => and_congr_left' (h ack).symm

/-- The first two packets of both reliable channels wait for an acknowledgement. -/
def twoPending : InnerUdpCommunicator Nat Nat :=
  { lastSeen := 0
    lastSend := 0
    reliableSendPackets := (RingBuffer.new.push (waiting false 0)).push (waiting false 1)
    reliableOrderedSendPackets := (RingBuffer.new.push (waiting true 0)).push (waiting true 1) }
where
  waiting (ordered : Bool) (id : UInt16) : PendingPacket Nat :=
    { packet := { reliable := true, ordered, ack := .new id .new (.new : RingBuffer Nat 32),
                  messages := [5] }
      lastSend := 0
      remainingRetries := 3 }

/-- The first packet of the unordered channel has been received, none of the ordered one. -/
def firstReceived : RingBuffer Unit 32 := RingBuffer.new.push ()

/-- Of the pending packets the received one is forgotten, also when its acknowledgement comes in
twice and after a later one. -/
theorem acknowledge_spec_twice :
    (twoPending.reliableSendPackets.get 0).isSome ∧ firstReceived.get 0 ≠ none ∧
    (twoPending.reliableSendPackets.get 1).isSome ∧ firstReceived.get 1 = none ∧
    Forgets twoPending
      (twoPending.acknowledge (.new 7 firstReceived (.new : RingBuffer Nat 32)))
      (fun id => firstReceived.get id ≠ none)
      (fun id => (RingBuffer.new : RingBuffer Nat 32).get id ≠ none) ∧
    let ack := PacketAck.new 7 firstReceived (.new : RingBuffer Nat 32)
    let later := PacketAck.new 8 (firstReceived.push ()) (.new : RingBuffer Nat 32)
    [later, ack, ack].foldl acknowledge twoPending = [ack, later].foldl acknowledge twoPending := by
  have hspec := acknowledge_spec (T := Nat) twoPending
  refine ⟨by decide, by decide, by decide, by decide, hspec.1 7 firstReceived .new,
    hspec.2 _ _ fun ack => ?_⟩
  simp only [List.mem_cons, List.not_mem_nil, or_false, or_self]
  exact or_comm

end InnerUdpCommunicator

end MiniUdp
