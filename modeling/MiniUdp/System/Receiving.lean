import MiniUdp.System.Releasing

/-!
# What receiving does

A packet of the other side's log comes in. The receiving half stays in step with
the log (`Cross.receive`), and the acknowledgement takes only accepted packets
out of the send windows (`SenderStep` in `Endpoint.receive_step`).
-/

namespace MiniUdp

open Serial InnerUdpCommunicator

variable {S R Buf D : Type}

/-! ## The receiving half after a packet -/

section Receiver

variable (x : Endpoint S R Buf) (index : Nat) {packet : Packet R} (now : Instant) (buf : Buf)

theorem receiver_unreliable (hr : packet.reliable = false) :
    (x.receive index packet now buf).receiver = { x.receiver with
      puts := x.puts ++ [⟨.unreliable, index, packet.messages⟩]
      everPut := x.everPut ++ packet.messages } := by
  simp only [Endpoint.receive, Endpoint.receiver, Endpoint.everPut, Endpoint.everPutOrdered,
    onPacket_unreliable now hr, acknowledge_eq, hr, dist_self, List.drop_left, List.append_assoc]
  simp

theorem receiver_dropped (hr : packet.reliable = true) (h : x.com.accepts packet = false) :
    (x.receive index packet now buf).receiver = x.receiver := by
  simp only [Endpoint.receive, Endpoint.receiver, Endpoint.everPut, Endpoint.everPutOrdered,
    onPacket_dropped now hr h, hr, h, dist_self]
  simp

theorem receiver_unordered (hr : packet.reliable = true) (h : x.com.accepts packet = true)
    (ho : packet.ordered = false) :
    (x.receive index packet now buf).receiver = { x.receiver with
      unorderedReceived := x.com.reliableReceivedPackets.insert packet.ack.sequenceId ()
      reliableAccepted := x.reliableAccepted ++ [index]
      puts := x.puts ++ [⟨.reliable false, index, packet.messages⟩]
      everPut := x.everPut ++ packet.messages } := by
  simp only [Endpoint.receive, Endpoint.receiver, Endpoint.everPut, Endpoint.everPutOrdered,
    onPacket_accepted now hr h, accept_unordered _ ho, hr, h, ho, dist_self, List.drop_left,
    List.append_assoc]
  simp

theorem receiver_ordered (hr : packet.reliable = true) (h : x.com.accepts packet = true)
    (ho : packet.ordered = true) {com : InnerUdpCommunicator S R}
    (hcom : x.com.onPacket now packet = com) :
    (x.receive index packet now buf).receiver = { x.receiver with
      orderedReceived := com.reliableOrderedReceivedPackets
      head := com.orderedReadPacketHead
      orderedAccepted := x.orderedAccepted ++ [index]
      released := x.released +
        (com.orderedReadPacketHead - x.com.orderedReadPacketHead).toNat
      everPutOrdered := x.readOrdered ++ com.orderedRecvQueue } := by
  have hf := accept_ordered_frame { x.com with lastSeen := now } ho
  rw [← onPacket_accepted now hr h, hcom] at hf
  have hrecv : com.reliableReceivedPackets = x.com.reliableReceivedPackets := by rw [hf.eq]; rfl
  have hqueue : com.unorderedRecvQueue = x.com.unorderedRecvQueue := by rw [hf.eq]; rfl
  simp only [Endpoint.receive, Endpoint.receiver, Endpoint.everPut, Endpoint.everPutOrdered,
    hcom, hrecv, hqueue, hr, h, ho]
  simp

end Receiver

/-! ## A new packet in a window -/

section Window

variable {T : Type} {ring : RingBuffer T 32} {accepted : List Nat} {k : Nat}

theorem RecvInv.ring_insert (h : RecvInv ring.newest (fun id => (ring.get id).isSome) accepted)
    (hle : top accepted ≤ k + 32) (hahead : k ≤ top accepted + 65000) (v : T) :
    RecvInv (ring.insert (seq k) v).newest (fun id => ((ring.insert (seq k) v).get id).isSome)
      (accepted ++ [k]) := by
  refine h.insert hle hahead (RingBuffer.newest_insert ring (seq k) v) fun id => ?_
  rw [RingBuffer.get_insert]
  split
  · rfl
  · split <;> rfl

theorem Near.ahead {t : Nat} (h : Near k t) : k ≤ t + 65000 := by
  unfold Near at h
  omega

/-- Which packets the window of an invariant holds. -/
theorem RecvInv.isSome_iff (h : RecvInv ring.newest (fun id => (ring.get id).isSome) accepted)
    (hlt : k < top accepted) (hn : top accepted ≤ k + 32) :
    (ring.get (seq k)).isSome = true ↔ k ∈ accepted := by
  rw [h.received]
  constructor
  · rintro ⟨i, hi, e, hin⟩
    have := lt_top hi
    exact index_eq e (by omega) (by omega) ▸ hi
  · exact fun hk => ⟨k, hk, rfl, hn⟩

end Window

/-! ## An ordered packet is accepted -/

namespace Receiver.Ordered

variable {r : Receiver R} {log : List (Built R)} {k : Nat} {b : Built R}

/-- The window with the new packet stored. -/
theorem stored_insert (h : r.Ordered log) (hw : RecvInv r.orderedReceived.newest
      (fun id => (r.orderedReceived.get id).isSome) r.orderedAccepted)
    (hb : log[k]? = some b) (hk : k ∉ r.orderedAccepted) (hle : top r.orderedAccepted ≤ k + 32)
    (hahead : k ≤ top r.orderedAccepted + 65000) :
    ∀ i ∈ r.orderedAccepted ++ [k], top (r.orderedAccepted ++ [k]) ≤ i + 32 →
      ∃ p, (r.orderedReceived.insert (seq k) b.packet).get (seq i) = some p ∧
        (i < r.released → p.messages = []) ∧
        (r.released ≤ i → ∃ b', log[i]? = some b' ∧ p.messages = b'.packet.messages) := by
  intro i hi hin
  have hw' := hw.ring_insert hle hahead b.packet
  have htop := top_append r.orderedAccepted k
  have hit := lt_top hi
  rw [RingBuffer.get_insert, hw'.newest]
  by_cases e : i = k
  · subst e
    rw [if_pos rfl]
    exact ⟨_, rfl, fun hlt => absurd (h.before i hlt) hk, fun _ => ⟨b, hb, rfl⟩⟩
  · have hacc : i ∈ r.orderedAccepted :=
      (List.mem_append.mp hi).resolve_right fun hc => e (List.mem_singleton.mp hc)
    have hne : seq (i : Int) ≠ seq k := fun hc => e (index_eq hc (by omega) (by omega))
    rw [if_neg hne, if_pos (by rw [dist_seq]; omega)]
    exact h.stored i hacc (by omega)

/-- The packets from `h` on put out, message by message. -/
theorem take_flatMap {T : Type} (l : List T) (f : T → List R) (h n : Nat) :
    (l.take (h + n)).flatMap f = (l.take h).flatMap f ++
      (List.range' h n).flatMap fun i => (l[i]?.map f).getD [] := by
  induction n generalizing h with
  | zero => simp
  | succ n ih =>
    have e : h + (n + 1) = h + 1 + n := by omega
    rw [e, ih, List.range'_succ, List.flatMap_cons, List.take_add_one, List.flatMap_append,
      List.append_assoc]
    cases l[h]? <;> simp

/-- What the loop puts out is what the log holds. -/
theorem release (h : r.Ordered log) {com com' : InnerUdpCommunicator S R} {n : Nat}
    {accepted : List Nat} (queue : List R)
    (hw : RecvInv com.reliableOrderedReceivedPackets.newest
      (fun id => (com.reliableOrderedReceivedPackets.get id).isSome) accepted)
    (hstored : ∀ i ∈ accepted, top accepted ≤ i + 32 →
      ∃ p, com.reliableOrderedReceivedPackets.get (seq i) = some p ∧
        (i < r.released → p.messages = []) ∧
        (r.released ≤ i → ∃ b', log[i]? = some b' ∧ p.messages = b'.packet.messages))
    (hmore : ∀ i ∈ r.orderedAccepted, i ∈ accepted)
    (hqueue : queue ++ com.orderedRecvQueue = r.everPutOrdered)
    (hn : Releases (top accepted) r.released n com com') :
    Ordered log { r with
      orderedReceived := com'.reliableOrderedReceivedPackets
      head := com'.orderedReadPacketHead
      orderedAccepted := accepted
      released := r.released + n
      everPutOrdered := queue ++ com'.orderedRecvQueue } := by
  have hle := hn.le
  have hacc : ∀ i, r.released ≤ i → i < r.released + n → i ∈ accepted := fun i h1 h2 => by
    obtain ⟨hin, hs⟩ := hn.stored i h1 h2
    exact (hw.isSome_iff (by omega) hin).mp hs
  refine ⟨hn.head, hle, fun i hi => ?_, fun hmem => ?_, fun i hi hin => ?_, ?_⟩
  · by_cases hlt : i < r.released
    · exact hmore i (h.before i hlt)
    · exact hacc i (by omega) hi
  · by_contra hc
    have hmem : r.released + n ∈ accepted := hmem
    have hc : ¬ r.released + n + 32 < top accepted := hc
    have hlt := lt_top hmem
    have := (hw.isSome_iff hlt (by omega)).mpr hmem
    rw [hn.stop hlt (by omega)] at this
    cases this
  · have hin : top accepted ≤ i + 32 := hin
    have hi : i ∈ accepted := hi
    have hit := lt_top hi
    obtain ⟨p, hp, h1, h2⟩ := hstored i hi hin
    show ∃ p, com'.reliableOrderedReceivedPackets.get (seq i) = some p ∧
      (i < r.released + n → p.messages = []) ∧ (r.released + n ≤ i → _)
    by_cases hout : r.released ≤ i ∧ i < r.released + n
    · exact ⟨_, hn.emptied i hout.1 hout.2 p hp, fun _ => rfl, fun hc => by omega⟩
    · refine ⟨p, ?_, fun hlt => h1 (by omega), fun hge => h2 (by omega)⟩
      rw [hn.rest _ fun j h3 h4 e => ?_, hp]
      have := (hn.stored j h3 h4).1
      have := index_eq e (by omega) (by omega)
      omega
  · show queue ++ com'.orderedRecvQueue = (log.take (r.released + n)).flatMap _
    rw [hn.queue, ← List.append_assoc, hqueue, h.put, take_flatMap]
    congr 1
    refine List.flatMap_congr fun i hi => ?_
    have hi := List.mem_range'_1.mp hi
    obtain ⟨p, hp, -, h2⟩ := hstored i (hacc i hi.1 hi.2) (hn.stored i hi.1 hi.2).1
    obtain ⟨b', hb', e⟩ := h2 hi.1
    rw [hp, hb', Option.map_some, Option.map_some, Option.getD_some, Option.getD_some, e]

end Receiver.Ordered

/-! ## The receiving half takes a packet -/

/-- The packets accepted in a channel when packet `k` of the first one comes in. -/
def Takes (channel : Channel) (k : Nat) (ordered : Bool) (old new : List Nat) : Prop :=
  new = old ∨ channel = .reliable ordered ∧ k ∉ old ∧ top old ≤ k + 32 ∧ new = old ++ [k]

/-- What packet `k` of a channel can do to the receiving half. -/
structure ReceiverStep (channel : Channel) (k : Nat) (r r' : Receiver R) : Prop where
  accepted : ∀ ordered, Takes channel k ordered (r.accepted ordered) (r'.accepted ordered)
  released : r.released ≤ r'.released
  /-- When the next packet has left the window, nothing is put out. -/
  stopped : r.released + 32 < top r'.orderedAccepted → r'.released = r.released

theorem ReceiverStep.mem {channel : Channel} {k : Nat} {r r' : Receiver R}
    (h : ReceiverStep channel k r r') (ordered : Bool) {i : Nat} (hi : i ∈ r.accepted ordered) :
    i ∈ r'.accepted ordered := by
  rcases h.accepted ordered with e | ⟨-, -, -, e⟩
  · rwa [e]
  · rw [e]
    exact List.mem_append_left _ hi

/-- The receiving half with what it says about the other side's packets. -/
structure ReceivesWell (y : Endpoint S R Buf) (channel : Channel) (k : Nat) (r r' : Receiver S) :
    Prop where
  inv : r'.Inv
  step : ReceiverStep channel k r r'
  puts : ∀ p ∈ r'.puts, ∃ b, (y.builtIn p.channel)[p.index]? = some b ∧
    p.messages = b.packet.messages
  ordered : r'.Ordered y.orderedLog

section Take

variable {x : Endpoint S R Buf} {y : Endpoint R S Buf} {link : Link R Buf D}
  {flight : List (Datagram D)} {channel : Channel} {k : Nat} {b : Built R}

/-- When packet `k` of a channel comes in, the tests of `read_packet` are right about it. -/
structure Timely (r : Receiver R) (channel : Channel) (k : Nat) : Prop where
  near : ∀ ordered, channel = .reliable ordered → Near k (top (r.accepted ordered))
  comparable : channel = .reliable true →
    Comparable r.released (max (top r.orderedAccepted) (k + 1))

/-- Only new packets are accepted. -/
theorem Timely.new_of_accepts (ht : Timely x.receiver (.reliable b.packet.ordered) k)
    (hx : x.receiver.Inv) (hid : b.packet.ack.sequenceId = seq k)
    (h : x.com.accepts b.packet = true) :
    k ∉ x.accepted b.packet.ordered ∧ top (x.accepted b.packet.ordered) ≤ k + 32 := by
  rw [accepts, Bool.and_eq_true, Bool.not_eq_true', Bool.not_eq_true', isDuplicate_eq, isTooOld_eq,
    hid] at h
  exact (hx.windows b.packet.ordered).new_of_passes (ht.near _ rfl) h.1 h.2

theorem Cross.receive_unreliable (hx : x.receiver.Inv) (hc : Cross link y x.receiver flight)
    (hb : (y.builtIn .unreliable)[k]? = some b) (hr : b.packet.reliable = false) (now : Instant)
    (buf : Buf) : ReceivesWell y .unreliable k x.receiver
      (x.receive k b.packet now buf).receiver := by
  rw [receiver_unreliable x k now buf hr]
  refine ⟨⟨hx.windows, hx.nodup, ?_, ?_, fun p hp => ?_⟩,
    ⟨fun _ => .inl rfl, Nat.le_refl _, fun _ => rfl⟩, fun p hp => ?_, ?_⟩
  · show x.everPut ++ b.packet.messages = (x.puts ++ _).flatMap Put.messages
    rw [List.flatMap_append, ← show _ = x.puts.flatMap Put.messages from hx.put]
    simp [Endpoint.receiver]
  · show ((x.puts ++ _).filter _).map Put.index = x.reliableAccepted
    rw [List.filter_append, List.map_append, ← show _ = x.reliableAccepted from hx.indices]
    simp [Endpoint.receiver]
  · rcases List.mem_append.mp hp with hp | hp
    · exact hx.channels p hp
    · rw [List.mem_singleton.mp hp]
      exact fun e => by cases e
  · rcases List.mem_append.mp hp with hp | hp
    · exact hc.puts p hp
    · rw [List.mem_singleton.mp hp]
      exact ⟨b, hb, rfl⟩
  · exact ⟨hc.ordered.head, hc.ordered.le_top, hc.ordered.before, hc.ordered.next,
      hc.ordered.stored, hc.ordered.put⟩

theorem Cross.receive_unordered (hx : x.receiver.Inv) (hc : Cross link y x.receiver flight)
    (hb : (y.log false)[k]? = some b) (hr : b.packet.reliable = true)
    (ho : b.packet.ordered = false) (hid : b.packet.ack.sequenceId = seq k)
    (ht : Timely x.receiver (.reliable false) k) (h : x.com.accepts b.packet = true)
    (now : Instant) (buf : Buf) : ReceivesWell y (.reliable false) k x.receiver
      (x.receive k b.packet now buf).receiver := by
  obtain ⟨hnew, hle⟩ := (show Timely x.receiver (.reliable b.packet.ordered) k from ho ▸ ht)
    |>.new_of_accepts hx hid h
  rw [ho] at hnew hle
  rw [receiver_unordered x k now buf hr h ho, hid]
  obtain ⟨hw, hwo⟩ := (x.receiver.forall_windows).mp hx.windows
  have hw' := hw.ring_insert hle (ht.near false rfl).ahead ()
  have hring : x.receiver.unorderedReceived = x.com.reliableReceivedPackets := rfl
  rw [hring] at hw'
  generalize x.com.reliableReceivedPackets.insert (seq k) () = ring at hw' ⊢
  obtain ⟨hn, hno⟩ := (x.receiver.forall_accepted (P := fun _ => List.Nodup)).mp hx.nodup
  refine ⟨⟨(Receiver.forall_windows _).mpr ⟨hw', hwo⟩, (Receiver.forall_accepted _).mpr ⟨?_, hno⟩,
    ?_, ?_, fun p hp => ?_⟩, ⟨?_, Nat.le_refl _, fun _ => rfl⟩, fun p hp => ?_, ?_⟩
  · exact List.nodup_append.mpr ⟨hn, List.nodup_singleton k,
      fun i hi j hj e => hnew (List.mem_singleton.mp hj ▸ e ▸ hi)⟩
  · show x.everPut ++ b.packet.messages = (x.puts ++ _).flatMap Put.messages
    rw [List.flatMap_append, ← show _ = x.puts.flatMap Put.messages from hx.put]
    simp [Endpoint.receiver]
  · show ((x.puts ++ _).filter _).map Put.index = x.reliableAccepted ++ [k]
    rw [List.filter_append, List.map_append, ← show _ = x.reliableAccepted from hx.indices]
    simp [Endpoint.receiver]
  · rcases List.mem_append.mp hp with hp | hp
    · exact hx.channels p hp
    · rw [List.mem_singleton.mp hp]
      exact fun e => by cases e
  · exact (Receiver.forall_accepted _ (P := fun o => Takes _ k o (x.accepted o))).mpr
      ⟨.inr ⟨rfl, hnew, hle, rfl⟩, .inl rfl⟩
  · rcases List.mem_append.mp hp with hp | hp
    · exact hc.puts p hp
    · rw [List.mem_singleton.mp hp]
      exact ⟨b, hb, rfl⟩
  · exact ⟨hc.ordered.head, hc.ordered.le_top, hc.ordered.before, hc.ordered.next,
      hc.ordered.stored, hc.ordered.put⟩

/-- What `read_packet` does with an accepted ordered packet. -/
theorem Receiver.Ordered.releases (h : x.receiver.Ordered y.orderedLog) (hx : x.receiver.Inv)
    (hb : (y.log true)[k]? = some b) (hr : b.packet.reliable = true)
    (ho : b.packet.ordered = true) (hid : b.packet.ack.sequenceId = seq k)
    (ht : Timely x.receiver (.reliable true) k) (hnew : k ∉ x.orderedAccepted)
    (hle : top x.orderedAccepted ≤ k + 32) (ha : x.com.accepts b.packet = true) (now : Instant) :
    ∃ (com : InnerUdpCommunicator S R) (n : Nat),
      RecvInv com.reliableOrderedReceivedPackets.newest
        (fun id => (com.reliableOrderedReceivedPackets.get id).isSome) (x.orderedAccepted ++ [k]) ∧
      (∀ i ∈ x.orderedAccepted ++ [k], top (x.orderedAccepted ++ [k]) ≤ i + 32 →
        ∃ p, com.reliableOrderedReceivedPackets.get (seq i) = some p ∧
          (i < x.released → p.messages = []) ∧
          (x.released ≤ i → ∃ b', y.orderedLog[i]? = some b' ∧
            p.messages = b'.packet.messages)) ∧
      com.orderedRecvQueue = x.com.orderedRecvQueue ∧
      OrderedFrame com (x.com.onPacket now b.packet) ∧
      Releases (top (x.orderedAccepted ++ [k])) x.released n com (x.com.onPacket now b.packet) := by
  have hahead := (ht.near true rfl).ahead
  obtain ⟨-, hwo⟩ := (x.receiver.forall_windows).mp hx.windows
  have hw' := hwo.ring_insert hle hahead b.packet
  have hle' := h.le_top
  have htop := top_append x.orderedAccepted k
  refine ⟨({ x.com with lastSeen := now } : InnerUdpCommunicator S R).stored b.packet, ?_⟩
  rw [onPacket_accepted now hr ha, accept_ordered _ ho]
  obtain ⟨ks, hks, hsorted, hmem⟩ := keys_eq_map_seq hw'
  have hring : (({ x.com with lastSeen := now } : InnerUdpCommunicator S R).stored
      b.packet).reliableOrderedReceivedPackets =
        x.receiver.orderedReceived.insert (seq k) b.packet := by rw [ring_stored, hid]; rfl
  have hstored := h.stored_insert hwo hb hnew hle hahead
  have hhead : (({ x.com with lastSeen := now } : InnerUdpCommunicator S R).stored
      b.packet).orderedReadPacketHead = seq x.released := h.head
  have hqueue : (({ x.com with lastSeen := now } : InnerUdpCommunicator S R).stored
      b.packet).orderedRecvQueue = x.com.orderedRecvQueue := rfl
  have hcmp := ht.comparable rfl
  generalize ({ x.com with lastSeen := now } : InnerUdpCommunicator S R).stored b.packet = com at *
  have hframe := releaseOrdered_frame com.reliableOrderedReceivedPackets.keys com
  rw [hring, hks] at hframe ⊢
  obtain ⟨n, hn⟩ := releases_map_seq (t := top (x.orderedAccepted ++ [k])) ks hsorted hhead
    (by have : x.released ≤ top x.orderedAccepted := hle'; omega) (htop ▸ hcmp)
    (fun i hi => by
      obtain ⟨hacc, hin⟩ := (hmem i).mp hi
      refine ⟨lt_top hacc, hin, ?_⟩
      rw [hring]
      exact (hw'.isSome_iff (lt_top hacc) hin).mpr hacc)
    (fun i h1 h2 h3 h4 => by
      rw [hring] at h4
      exact (hmem i).mpr ⟨(hw'.isSome_iff h2 h3).mp h4, h3⟩)
  exact ⟨n, hw', hstored, hqueue, hframe, hn⟩

theorem Cross.receive_ordered (hx : x.receiver.Inv) (hc : Cross link y x.receiver flight)
    (hb : (y.log true)[k]? = some b) (hr : b.packet.reliable = true)
    (ho : b.packet.ordered = true) (hid : b.packet.ack.sequenceId = seq k)
    (ht : Timely x.receiver (.reliable true) k) (h : x.com.accepts b.packet = true)
    (now : Instant) (buf : Buf) : ReceivesWell y (.reliable true) k x.receiver
      (x.receive k b.packet now buf).receiver := by
  obtain ⟨hnew, hle⟩ := (show Timely x.receiver (.reliable b.packet.ordered) k from ho ▸ ht)
    |>.new_of_accepts hx hid h
  rw [ho] at hnew hle
  obtain ⟨com, n, hw, hstored, hqueue, hframe, hn⟩ :=
    hc.ordered.releases hx hb hr ho hid ht hnew hle h now
  have hhead : x.com.orderedReadPacketHead = seq x.released := hc.ordered.head
  have hn32 : n ≤ 32 := by
    by_contra hcon
    have := (hn.stored x.released (Nat.le_refl _) (by omega)).1
    have := hn.le
    omega
  have hmore : ∀ i ∈ x.receiver.orderedAccepted, i ∈ x.orderedAccepted ++ [k] :=
    fun i hi => List.mem_append_left _ hi
  have hout := hc.ordered.release x.readOrdered hw hstored hmore
    (by rw [hqueue]; rfl) hn
  have hrecv := receiver_ordered x k now buf hr h ho rfl
  have hhead' := hn.head
  generalize x.com.onPacket now b.packet = com' at *
  have hrel : (com'.orderedReadPacketHead - x.com.orderedReadPacketHead).toNat = n := by
    rw [hhead, hhead', dist_seq]
    omega
  rw [hrel] at hrecv
  have hw' : RecvInv com'.reliableOrderedReceivedPackets.newest
      (fun id => (com'.reliableOrderedReceivedPackets.get id).isSome) (x.orderedAccepted ++ [k]) :=
    ⟨hframe.newest.trans hw.newest, fun id => hframe.received id ▸ hw.received id⟩
  obtain ⟨hwu, -⟩ := (x.receiver.forall_windows).mp hx.windows
  obtain ⟨hnu, hno⟩ := (x.receiver.forall_accepted (P := fun _ => List.Nodup)).mp hx.nodup
  rw [hrecv]
  refine ⟨⟨(Receiver.forall_windows _).mpr ⟨hwu, hw'⟩, (Receiver.forall_accepted _).mpr ⟨hnu, ?_⟩,
    hx.put, hx.indices, hx.channels⟩, ⟨?_, Nat.le_add_right _ _, fun hfar => ?_⟩, hc.puts, hout⟩
  · exact List.nodup_append.mpr ⟨hno, List.nodup_singleton k,
      fun i hi j hj e => hnew (List.mem_singleton.mp hj ▸ e ▸ hi)⟩
  · exact (Receiver.forall_accepted _ (P := fun o => Takes _ k o (x.accepted o))).mpr
      ⟨.inl rfl, .inr ⟨rfl, hnew, hle, rfl⟩⟩
  · -- the loop stops at once: the packet at the head is in the window or not put out
    have hfar : x.released + 32 < top (x.orderedAccepted ++ [k]) := hfar
    obtain rfl | hpos := Nat.eq_zero_or_pos n
    · rfl
    · have := (hn.stored x.released (Nat.le_refl _) (by omega)).1
      omega

/-- Every packet of the other side's log leaves the receiving half well. -/
theorem Cross.receivesWell [ByteRepr R] (hy : y.Inv) (hx : x.receiver.Inv)
    (hc : Cross link y x.receiver flight) (hb : (y.builtIn channel)[k]? = some b)
    (ht : Timely x.receiver channel k) (now : Instant) (buf : Buf) :
    ReceivesWell y channel k x.receiver (x.receive k b.packet now buf).receiver := by
  cases channel with
  | unreliable =>
    exact hc.receive_unreliable hx hb (hy.unreliable b (List.mem_of_getElem? hb)).1 now buf
  | reliable ordered =>
    obtain ⟨hr, ho, hid, -⟩ := (hy.send ordered).built k b hb
    cases ha : x.com.accepts b.packet with
    | false =>
      rw [receiver_dropped x k now buf hr ha]
      exact ⟨hx, ⟨fun _ => .inl rfl, Nat.le_refl _, fun _ => rfl⟩, hc.puts, hc.ordered⟩
    | true =>
      cases ordered with
      | false => exact hc.receive_unordered hx hb hr ho hid ht ha now buf
      | true => exact hc.receive_ordered hx hb hr ho hid ht ha now buf

/-- The next ordered packet has not been accepted, so it is pending and the sender has not gone
further than a window beyond it. -/
theorem Covered.next_near (hcov : Covered y x.receiver) (ho : x.receiver.Ordered y.orderedLog)
    {t : Nat} (ht : t ≤ (y.log true).length) : t ≤ x.released + 32 := by
  have hnew : x.released ∉ x.orderedAccepted := fun hc => by
    have h1 : x.released + 32 < top x.orderedAccepted := ho.next hc
    have h2 : top x.orderedAccepted ≤ x.released + 32 := hcov.near
    omega
  by_cases hlt : x.released < (y.log true).length
  · have hp := ((hcov.view true).cover x.released hlt).resolve_right hnew
    have : (y.log true).length ≤ x.released + 32 := ((hcov.view true).pending_near _ hp).2
    omega
  · omega

theorem Cross.receive (hc : Cross link y x.receiver flight)
    (hb : (y.builtIn channel)[k]? = some b) {r' : Receiver R}
    (hr : ReceivesWell y channel k x.receiver r') : Cross link y r' flight := by
  have hk : ∀ ordered, channel = .reliable ordered → k < (y.log ordered).length := by
    rintro ordered rfl
    exact (List.getElem?_eq_some_iff.mp hb).1
  have hlt : ∀ ordered, ∀ i ∈ r'.accepted ordered, i < (y.log ordered).length :=
    fun ordered i hi => by
      rcases hr.step.accepted ordered with e | ⟨hch, -, -, e⟩
      · exact hc.accepted_lt ordered i (e ▸ hi)
      · rcases List.mem_append.mp (e ▸ hi) with hi | hi
        · exact hc.accepted_lt ordered i hi
        · exact List.mem_singleton.mp hi ▸ hk ordered hch
  refine ⟨hlt, hc.flight, fun i hi => hr.step.mem true (hc.acked i hi), hr.puts,
    hr.ordered, fun hg => ?_⟩
  have hcov := hc.covered hg
  refine ⟨fun ordered => ?_, ?_⟩
  · rcases hr.step.accepted ordered with e | ⟨hch, -, -, e⟩
    · rw [e]
      exact hcov.view ordered
    · refine (hcov.view ordered).accept (k := k) ⟨hk ordered hch, rfl, rfl, fun i => ?_⟩
      show i ∈ r'.accepted ordered ↔ i = k ∨ i ∈ x.receiver.accepted ordered
      rw [e, List.mem_append, List.mem_singleton, or_comm]
  · have := hcov.next_near hc.ordered (top_le (hlt true))
    exact this.trans (Nat.add_le_add_right hr.step.released 32)

end Take

/-! ## The sending half takes the acknowledgement -/

section Acknowledgement

variable {x : Endpoint S R Buf} {y : Endpoint R S Buf} {b : Built R} (k : Nat) (now : Instant)
  (buf : Buf)

/-- What `read_packet` does to the send side: nothing, if it drops the packet. -/
theorem onPacket_sendSide (com : InnerUdpCommunicator S R) (packet : Packet R) :
    ((packet.reliable = true ∧ com.accepts packet = false) ∧
        (∀ ordered, (com.onPacket now packet).sendWindow ordered = com.sendWindow ordered) ∨
      (packet.reliable = true → com.accepts packet = true) ∧
        ∀ ordered, (com.onPacket now packet).sendWindow ordered =
          takeAcked (packet.ack.newest ordered) (packet.ack.bits ordered)
            (com.sendWindow ordered)) ∧
    (∀ ordered, (com.onPacket now packet).sendQueue ordered = com.sendQueue ordered) ∧
    (com.onPacket now packet).unreliableSendQueue = com.unreliableSendQueue ∧
    (com.onPacket now packet).unreliableSendPackets = com.unreliableSendPackets := by
  cases hr : packet.reliable with
  | false =>
    rw [onPacket_unreliable now hr, acknowledge_eq]
    exact ⟨.inr ⟨fun h => (nomatch h), Bool.forall_bool.mpr ⟨rfl, rfl⟩⟩,
      Bool.forall_bool.mpr ⟨rfl, rfl⟩, rfl, rfl⟩
  | true =>
    cases ha : com.accepts packet with
    | false =>
      rw [onPacket_dropped now hr ha]
      exact ⟨.inl ⟨⟨rfl, rfl⟩, Bool.forall_bool.mpr ⟨rfl, rfl⟩⟩,
        Bool.forall_bool.mpr ⟨rfl, rfl⟩, rfl, rfl⟩
    | true =>
      rw [onPacket_accepted now hr ha]
      refine ⟨.inr ⟨fun _ => rfl, ?_⟩, ?_⟩
      · exact Bool.forall_bool.mpr (sendPackets_accept _ packet)
      · cases ho : packet.ordered with
        | false =>
          rw [accept_unordered _ ho]
          exact ⟨Bool.forall_bool.mpr ⟨rfl, rfl⟩, rfl, rfl⟩
        | true =>
          rw [(accept_ordered_frame _ ho).eq]
          exact ⟨Bool.forall_bool.mpr ⟨rfl, rfl⟩, rfl, rfl⟩

/-- Only accepted packets leave the windows. -/
theorem settle_onPacket {accepted : Bool → List Nat} {n : Bool → Nat} {named : Named}
    (com : InnerUdpCommunicator S R) {packet : Packet R}
    (hack : ∀ ordered, AckOk (accepted ordered) (named.of ordered) packet.ack ordered)
    (hlt : ∀ ordered, ∀ i ∈ accepted ordered, i < n ordered)
    (hlag : ∀ ordered, n ordered ≤ named.of ordered + 65000) (ordered : Bool) :
    Shrinks (com.sendWindow ordered) ((com.onPacket now packet).sendWindow ordered) ∧
      ∀ i ∈ gone (com.sendWindow ordered) ((com.onPacket now packet).sendWindow ordered)
        (n ordered), i ∈ accepted ordered := by
  rcases (onPacket_sendSide now com packet).1 with ⟨-, e⟩ | ⟨-, e⟩
  · rw [e]
    refine ⟨.refl _, fun i hi => ?_⟩
    obtain ⟨hp, hnone⟩ := mem_gone.mp hi
    have := (mem_pendingIn.mp hp).2.2
    rw [hnone] at this
    cases this
  · rw [e]
    exact ⟨shrinks_takeAcked _ _ _, (hack ordered).gone_accepted (hlt ordered) (hlag ordered)⟩

variable [ByteRepr S] [ByteRepr R] {out : Link S Buf D} {inn : Link R Buf D}
  {sent incoming : List (Datagram D)} {channel : Channel} {k}

omit [ByteRepr S] [ByteRepr R] in
/-- What is not accepted leaves no trace in the record of accepted packets. -/
theorem accepted_receive (h : x.com.accepts b.packet = false) (ordered : Bool) :
    (x.receive k b.packet now buf).receiver.accepted ordered = x.receiver.accepted ordered := by
  cases hr : b.packet.reliable with
  | false => rw [receiver_unreliable x k now buf hr]; rfl
  | true => rw [receiver_dropped x k now buf hr h]

/-- Packet `k` of a channel of `y` comes in at `x`. -/
structure Receives (x x' : Endpoint S R Buf) (y : Endpoint R S Buf) (channel : Channel) (k : Nat)
    (b : Built R) : Prop where
  built : (y.builtIn channel)[k]? = some b
  inv : x'.Inv
  sender : SenderStep y.receiver.accepted x x'
  receiver : ReceivesWell y channel k x.receiver x'.receiver
  accepted : x.com.accepts b.packet = false → ∀ ordered,
    x'.receiver.accepted ordered = x.receiver.accepted ordered

theorem Endpoint.Inv.receives (hx : x.Inv) (hy : y.Inv) (hxy : Cross out x y.receiver sent)
    (hyx : Cross inn y x.receiver incoming) (hb : (y.builtIn channel)[k]? = some b)
    (ht : Timely x.receiver channel k)
    (hlag : ∀ ordered, (x.log ordered).length ≤ b.named.of ordered + 65000) :
    Receives x (x.receive k b.packet now buf) y channel k b := by
  have hwell := hyx.receivesWell hy hx.receiver hb ht now buf
  have hset := settle_onPacket now x.com (n := fun o => (x.log o).length)
    (hy.acks channel b (List.mem_of_getElem? hb)) hxy.accepted_lt hlag
  obtain ⟨-, hqueue, -, hwait⟩ := onPacket_sendSide now x.com b.packet
  have hlog : ∀ c, (x.receive k b.packet now buf).builtIn c = x.builtIn c := fun c => by
    cases c with
    | unreliable => rfl
    | reliable ordered => cases ordered <;> rfl
  refine ⟨hb, ⟨fun ordered => ?_, hwell.inv, fun c b' hb' ordered => ?_, ?_, hx.unreliable⟩,
    ⟨fun c => by rw [hlog], fun ordered i hi => .inl ((hset ordered).1.mem_pendingIn hi),
      fun i hi => ?_, fun hg => ⟨hg, fun ordered hv => hv.settle ((hset ordered).1.settle ?_)⟩⟩,
    hwell, accepted_receive now buf⟩
  · show SendInv ordered ((x.com.onPacket now b.packet).sendWindow ordered) (x.log ordered)
      ((x.com.onPacket now b.packet).sendQueue ordered) (x.wrote ordered)
    rw [hqueue]
    exact (hx.send ordered).shrink (hset ordered).1
  · have hack := hx.acks c b' (hlog c ▸ hb') ordered
    show AckOk ((x.receive k b.packet now buf).receiver.accepted ordered) _ _ _
    rcases hwell.step.accepted ordered with e | ⟨-, -, -, e⟩
    · rw [e]
      exact hack
    · rw [e]
      exact hack.mono
  · show ∃ before, x.unreliableLog.map Built.packet =
      before ++ (x.com.onPacket now b.packet).unreliableSendPackets
    rw [hwait]
    exact hx.waiting
  · rcases List.mem_append.mp (show i ∈ x.orderedAcked ++ gone _ _ _ from hi) with hi | hi
    · exact .inl hi
    · exact .inr ⟨(hset true).2 i hi, .inl (mem_gone.mp hi).1⟩
  · exact (hset ordered).2

/-- What a step of one endpoint does to both halves of it. -/
structure Steps (out : Link S Buf D) (x x' : Endpoint S R Buf) (y : Endpoint R S Buf)
    (event : Event S) (incoming new : List (Datagram D)) : Prop where
  inv : x'.Inv
  sender : SenderStep y.receiver.accepted x x'
  new : ∀ d ∈ new, Carries out x' d
  receiver : x'.receiver = x.receiver ∨ ∃ place now d b, event = .deliver place now ∧
    incoming[place]? = some d ∧ Receives x x' y d.channel d.index b

/-- The conditions on a delivery under which nothing goes wrong. -/
structure Ready (x : Endpoint S R Buf) (y : Endpoint R S Buf) (d : Datagram D) : Prop where
  timely : Timely x.receiver d.channel d.index
  lag : ∀ b, (y.builtIn d.channel)[d.index]? = some b →
    ∀ ordered, (x.log ordered).length ≤ b.named.of ordered + 65000

theorem Endpoint.Inv.steps (hx : x.Inv) (hy : y.Inv) (hxy : Cross out x y.receiver sent)
    (hyx : Cross inn y x.receiver incoming) (hlink : out.Faithful) {event : Event S}
    {x' : Endpoint S R Buf} {new : List (Datagram D)}
    (hs : x.step out inn incoming event = some (x', new))
    (hready : ∀ place now d, event = .deliver place now → incoming[place]? = some d →
      Ready x y d) : Steps out x x' y event incoming new := by
  by_cases hd : ∃ place now, event = .deliver place now
  · obtain ⟨place, now, rfl⟩ := hd
    simp only [Endpoint.step] at hs
    split at hs
    · rename_i d hd
      obtain ⟨b, buf, hb, hdeliver⟩ := (hyx.flight d (List.mem_of_getElem? hd)).deliver x now
      have hrd := hready place now d rfl hd
      simp only [hdeliver, Option.map_some, Option.some.injEq, Prod.mk.injEq] at hs
      obtain ⟨rfl, rfl⟩ := hs
      have h := hx.receives now buf hy hxy hyx hb hrd.timely (hrd.lag b hb)
      exact ⟨h.inv, h.sender, fun d hd => (nomatch hd), .inr ⟨place, now, d, b, rfl, hd, h⟩⟩
    · cases hs
  · have h := hx.step_sends hlink hs fun place now e => hd ⟨place, now, e⟩
    exact ⟨h.inv, h.step _, h.out, .inl h.receiver⟩

end Acknowledgement

end MiniUdp
