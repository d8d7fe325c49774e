import MiniUdp.Communicator.Flush
import MiniUdp.Communicator.Wire
import MiniUdp.Lib.Greedy

/-!
# What flushing builds

Flushing cuts each queue into packets and what is left of it, without loss and
in order, puts the reliable packets behind those pending and leaves these alone
(`FlushedInto`), and builds only packets that can be written (`flush_partitions`).
-/

namespace MiniUdp

open Serial While Greedy

variable {S R : Type} [ByteRepr S]

/-! ## One packet -/

theorem length_le_includedMsgs {availableBytes : Nat} {pre msgs : List S} (hpre : pre <+: msgs)
    (hle : Packet.dataLen pre ≤ availableBytes) :
    pre.length ≤ includedMsgs availableBytes msgs := by
  induction msgs generalizing pre availableBytes with
  | nil =>
    rw [List.prefix_nil.mp hpre]
    exact Nat.zero_le _
  | cons msg msgs ih =>
    cases pre with
    | nil => exact Nat.zero_le _
    | cons m pre =>
      obtain ⟨rfl, hrest⟩ := List.cons_prefix_cons.mp hpre
      simp only [Packet.dataLen, List.map_cons, List.sum_cons] at hle
      rw [includedMsgs, if_pos (by omega), List.length_cons]
      exact Nat.succ_le_succ (ih hrest (by rw [Packet.dataLen]; omega))

/-- A packet takes as many messages from the front of the queue as fit. -/
theorem longest_includedMsgs (budget : Nat) (queue : List S) :
    Longest ByteRepr.byteLen budget (queue.take (includedMsgs budget queue)) queue where
  isPrefix := List.take_prefix _ _
  within := dataLen_includedMsgs _ _
  longest l hl hle := by
    refine List.prefix_of_prefix_length_le hl (List.take_prefix _ _) ?_
    rw [List.length_take, Nat.min_eq_left (includedMsgs_le _ _)]
    exact length_le_includedMsgs hl hle

/-- The messages of the packets are the greedy chunks of the queue. -/
abbrev Packed (packets : List (Packet S)) (queue rest : List S) : Prop :=
  Chunked ByteRepr.byteLen MAX_PACKET_DATA_LEN (packets.map Packet.messages) queue rest

theorem Packed.snoc {packets : List (Packet S)} {queue rest : List S} {p : Packet S}
    (h : Packed packets queue rest)
    (hp : p.messages = rest.take (includedMsgs MAX_PACKET_DATA_LEN rest)) :
    Packed (packets ++ [p]) queue (afterPacket rest) := by
  have hchunk := Chunked.snoc h (longest_includedMsgs MAX_PACKET_DATA_LEN rest)
  rw [List.length_take, Nat.min_eq_left (includedMsgs_le _ _), ← hp] at hchunk
  rw [Packed, List.map_append]
  exact hchunk

/-! ## A reliable queue -/

section Reliable

variable {now : Instant} {retries : Nat} {reliableReceived : RingBuffer Unit 32}
  {orderedReceived : RingBuffer (Packet R) 32} {ordered : Bool}
  {window : RingBuffer (PendingPacket S) 32} {queue : List S}

/-- The number of the `j`-th packet built. -/
def builtId (window : RingBuffer (PendingPacket S) 32) (j : Nat) : UInt16 :=
  window.newest + 1 + UInt16.ofNat j

/-- What the loop over a reliable queue has made of the window and the queue it started with. -/
structure FlushedInto (now : Instant) (retries : Nat) (reliableReceived : RingBuffer Unit 32)
    (orderedReceived : RingBuffer (Packet R) 32) (ordered : Bool)
    (window : RingBuffer (PendingPacket S) 32) (queue : List S) (st : FlushState S) : Prop where
  partition : queue = st.built.flatMap Packet.messages ++ st.sendQueue
  packed : Packed st.built queue st.sendQueue
  newest : st.sendPackets.newest = window.newest + UInt16.ofNat st.built.length
  /-- What is pending was pending before or is one of the packets built, under its number. -/
  pending : ∀ id p, st.sendPackets.get id = some p ↔ window.get id = some p ∨
    ∃ (j : Nat) (packet : Packet S), st.built[j]? = some packet ∧ id = builtId window j ∧
      p = { lastSend := now - fromHours 1, remainingRetries := retries, packet }
  header : ∀ (j : Nat) (packet : Packet S), st.built[j]? = some packet →
    packet.ack = .new (builtId window j) reliableReceived orderedReceived ∧
    packet.reliable = true ∧ packet.ordered = ordered

theorem FlushedInto.start : FlushedInto now retries reliableReceived orderedReceived ordered window
    queue { sendPackets := window, sendQueue := queue } where
  partition := rfl
  packed := .nil _
  newest := by simp
  pending id p := by simp
  header j packet h := by simp at h

omit [ByteRepr S] in
theorem builtId_length {st : RingBuffer (PendingPacket S) 32} {n : Nat}
    (h : st.newest = window.newest + UInt16.ofNat n) : builtId window n = st.newest + 1 := by
  rw [builtId, h]
  exact eq_of_toNat (by simp only [UInt16.toNat_add, UInt16.toNat_ofNat', UInt16.toNat_one]; omega)

/-- The slot of the next number is free, so pushing a packet loses none. -/
theorem get_push_of_free {T : Type} {r : RingBuffer T 32} (h : r.pushWillOverride = false) (x : T)
    (id : UInt16) (y : T) : (r.push x).get id = some y ↔
      r.get id = some y ∨ id = r.newest + 1 ∧ y = x := by
  have hold : r.get (r.newest + 1 - UInt16.ofNat 32) = none := by
    rwa [RingBuffer.pushWillOverride_eq, Option.isSome_eq_false_iff, Option.isNone_iff_eq_none] at h
  have hnew : r.get (r.newest + 1) = none := RingBuffer.get_eq_none (by
    have : (r.newest - (r.newest + 1)).toNat = 65535 := by
      simp only [UInt16.toNat_sub, UInt16.toNat_add, UInt16.toNat_one]
      omega
    omega)
  rw [RingBuffer.get_push]
  by_cases hid : id = r.newest + 1
  · subst hid
    rw [if_pos rfl, hnew]
    simp [eq_comm]
  · rw [if_neg hid]
    by_cases hw : (r.newest + 1 - id).toNat < 32
    · rw [if_pos hw]
      simp [hid]
    · have hnone : r.get id = none := by
        by_contra hc
        obtain ⟨z, hz⟩ := Option.ne_none_iff_exists'.mp hc
        have hd := RingBuffer.dist_of_get hz
        have hlt := toNat_lt' id
        have he : id = r.newest + 1 - UInt16.ofNat 32 := eq_of_toNat (by
          simp only [UInt16.toNat_sub, UInt16.toNat_add, UInt16.toNat_one,
            UInt16.toNat_ofNat'] at hw hd ⊢
          omega)
        rw [he, hold] at hz
        cases hz
      rw [if_neg hw, hnone]
      simp [hid]

theorem getElem?_snoc_eq_some {T : Type} {l : List T} {x y : T} {j : Nat} :
    (l ++ [x])[j]? = some y ↔ l[j]? = some y ∨ j = l.length ∧ y = x := by
  rw [List.getElem?_append]
  by_cases h : j < l.length
  · rw [if_pos h]
    exact ⟨.inl, fun hc => hc.resolve_right fun e => by omega⟩
  · rw [if_neg h, List.getElem?_singleton, List.getElem?_eq_none (by omega)]
    by_cases e : j = l.length
    · simp [e, eq_comm]
    · have : ¬ j - l.length = 0 := by omega
      simp [e, this]

theorem FlushedInto.body {st : FlushState S} (h : FlushedInto now retries reliableReceived
    orderedReceived ordered window queue st) (hg : flushGuard st = true) :
    FlushedInto now retries reliableReceived orderedReceived ordered window queue
      (flushBody now retries reliableReceived orderedReceived ordered st) := by
  have hfree : st.sendPackets.pushWillOverride = false := by
    rw [flushGuard, Bool.and_eq_true, Bool.not_eq_true'] at hg
    exact hg.1
  have hid := builtId_length h.newest
  have hlen : ∀ p : Packet S, (st.built ++ [p]).length = st.built.length + 1 := fun p => by simp
  constructor
  · simp only [flushBody, List.flatMap_append, List.flatMap_singleton, List.append_assoc,
      List.take_append_drop]
    exact h.partition
  · exact h.packed.snoc rfl
  · rw [flushBody, RingBuffer.newest_push, hlen, ← hid, builtId]
    exact eq_of_toNat (by
      simp only [UInt16.toNat_add, UInt16.toNat_ofNat', UInt16.toNat_one]
      omega)
  · intro id p
    rw [flushBody, get_push_of_free hfree, h.pending, or_assoc, ← hid]
    refine or_congr_right ⟨?_, ?_⟩
    · rintro (⟨j, packet, hj, hp⟩ | ⟨rfl, rfl⟩)
      · exact ⟨j, packet, getElem?_snoc_eq_some.mpr (.inl hj), hp⟩
      · exact ⟨_, _, getElem?_snoc_eq_some.mpr (.inr ⟨rfl, rfl⟩), rfl, rfl⟩
    · rintro ⟨j, packet, hj, rfl, rfl⟩
      rcases getElem?_snoc_eq_some.mp hj with hj | ⟨rfl, rfl⟩
      · exact .inl ⟨j, packet, hj, rfl, rfl⟩
      · exact .inr ⟨rfl, rfl⟩
  · intro j packet hj
    rcases getElem?_snoc_eq_some.mp hj with hj | ⟨rfl, rfl⟩
    · exact h.header j packet hj
    · exact ⟨by rw [hid]; rfl, rfl, rfl⟩

/-- The loop is done. A packet that was not pending before carries the newest acknowledgement, under
the number it is pending at. -/
structure Flushed (now : Instant) (retries : Nat) (reliableReceived : RingBuffer Unit 32)
    (orderedReceived : RingBuffer (Packet R) 32) (ordered : Bool)
    (window : RingBuffer (PendingPacket S) 32) (queue : List S) (st : FlushState S) : Prop extends
    FlushedInto now retries reliableReceived orderedReceived ordered window queue st where
  stops : st.sendQueue ≠ [] → st.sendPackets.pushWillOverride = true
  ack : ∀ id p, st.sendPackets.get id = some p → window.get id = some p ∨
    p.packet.ack = .new id reliableReceived orderedReceived

theorem flushMessages_spec (now : Instant) (retries : Nat) (reliableReceived : RingBuffer Unit 32)
    (orderedReceived : RingBuffer (Packet R) 32) (ordered : Bool)
    (window : RingBuffer (PendingPacket S) 32) (queue : List S) :
    ∃ st, flushMessages now retries reliableReceived orderedReceived ordered window queue = .ok st ∧
      Flushed now retries reliableReceived orderedReceived ordered window queue st := by
  have hhalt : flushGuard ((flushBody now retries reliableReceived orderedReceived ordered)^[32]
      { sendPackets := window, sendQueue := queue }) = false := by
    rw [← Bool.not_eq_true, guard_iterate _ (seq_toNat _).symm]
    omega
  obtain ⟨st, hrun⟩ := runWhile_of_guard hhalt
  obtain ⟨hinv, hguard⟩ := runWhile_invariant (P := FlushedInto now retries reliableReceived
    orderedReceived ordered window queue) (fun _ h hg => h.body hg) .start hrun
  refine ⟨st, by unfold flushMessages; rw [hrun], ⟨hinv, fun hne => ?_, fun id p hp => ?_⟩⟩
  · simpa [flushGuard, hne] using hguard
  · rcases (hinv.pending id p).mp hp with hold | ⟨j, packet, hj, rfl, rfl⟩
    · exact .inl hold
    · exact .inr (hinv.header j packet hj).1

/-- If there is room for a packet and the messages fit, some of them are taken. -/
theorem Flushed.progress {st : FlushState S} (h : Flushed now retries reliableReceived
    orderedReceived ordered window queue st) (hq : queue ≠ [])
    (hroom : window.pushWillOverride = false) (hfits : ∀ m ∈ queue, fits m = true) :
    st.built ≠ [] ∧ st.sendQueue.length < queue.length := by
  have hbuilt : st.built ≠ [] := by
    intro hnil
    have hsame : queue = st.sendQueue := by simpa [hnil] using h.partition
    have hfull := h.stops (hsame ▸ hq)
    have hnewest : st.sendPackets.newest = window.newest := by simpa [hnil] using h.newest
    rw [RingBuffer.pushWillOverride_eq, hnewest] at hfull
    obtain ⟨p, hp⟩ := Option.isSome_iff_exists.mp hfull
    rw [h.pending, hnil] at hp
    rw [RingBuffer.pushWillOverride_eq] at hroom
    rcases hp with hp | ⟨j, packet, hj, -⟩
    · rw [hp] at hroom
      cases hroom
    · cases hj
  refine ⟨hbuilt, ?_⟩
  obtain ⟨p, ps, hps⟩ := List.exists_cons_of_ne_nil hbuilt
  obtain ⟨m, ms, hms⟩ := List.exists_cons_of_ne_nil hq
  -- the first packet has room for the first message
  have hpacked : Packed (p :: ps) (m :: ms) st.sendQueue := hps ▸ hms ▸ h.packed
  have hfirst : [m] <+: p.messages := by
    cases hpacked with
    | cons hl _ =>
      apply hl.longest
      · exact ⟨ms, rfl⟩
      · simpa [fits] using hfits m (by simp [hms])
  have hpos := hfirst.length_le
  have hlen := congrArg List.length h.partition
  rw [hps, List.flatMap_cons, List.length_append, List.length_append] at hlen
  rw [List.length_singleton] at hpos
  omega

end Reliable

/-! ## The unreliable queue -/

section Unreliable

variable {reliableReceived : RingBuffer Unit 32} {orderedReceived : RingBuffer (Packet R) 32}

/-- What the loop over the unreliable queue has made of the state it started with: the packets
`new` come behind those waiting. -/
structure DrainedInto (reliableReceived : RingBuffer Unit 32)
    (orderedReceived : RingBuffer (Packet R) 32) (st0 : UnreliableState S) (new : List (Packet S))
    (st : UnreliableState S) : Prop where
  sendPackets : st.sendPackets = st0.sendPackets ++ new
  partition : st0.sendQueue = new.flatMap Packet.messages ++ st.sendQueue
  packed : Packed new st0.sendQueue st.sendQueue
  sendPacketId : st.sendPacketId = st0.sendPacketId + UInt16.ofNat new.length
  header : ∀ (j : Nat) (packet : Packet S), new[j]? = some packet →
    packet.ack = .new (st0.sendPacketId + UInt16.ofNat j) reliableReceived orderedReceived ∧
    packet.reliable = false ∧ packet.ordered = false

theorem DrainedInto.start (st : UnreliableState S) :
    DrainedInto reliableReceived orderedReceived st [] st where
  sendPackets := (List.append_nil _).symm
  partition := rfl
  packed := .nil _
  sendPacketId := by simp
  header j packet h := by simp at h

theorem DrainedInto.body {st0 st : UnreliableState S} {new : List (Packet S)}
    (h : DrainedInto reliableReceived orderedReceived st0 new st) :
    ∃ packet, DrainedInto reliableReceived orderedReceived st0 (new ++ [packet])
      (unreliableBody reliableReceived orderedReceived st) := by
  let packet : Packet S :=
    { ack := .new st.sendPacketId reliableReceived orderedReceived
      reliable := false
      ordered := false
      messages := st.sendQueue.take (includedMsgs MAX_PACKET_DATA_LEN st.sendQueue) }
  refine ⟨packet, ⟨?_, ?_, ?_, ?_, ?_⟩⟩
  · rw [unreliableBody, h.sendPackets, List.append_assoc]
  · rw [unreliableBody, List.flatMap_append, List.flatMap_singleton, List.append_assoc,
      List.take_append_drop]
    exact h.partition
  · exact h.packed.snoc rfl
  · rw [unreliableBody, h.sendPacketId, List.length_append, List.length_singleton]
    exact eq_of_toNat (by
      simp only [UInt16.toNat_add, UInt16.toNat_ofNat', UInt16.toNat_one]
      omega)
  · intro j packet hj
    rcases getElem?_snoc_eq_some.mp hj with hj | ⟨rfl, rfl⟩
    · exact h.header j packet hj
    · exact ⟨by rw [← h.sendPacketId], rfl, rfl⟩

theorem flushUnreliable_spec (reliableReceived : RingBuffer Unit 32)
    (orderedReceived : RingBuffer (Packet R) 32) (st : UnreliableState S)
    (hfits : ∀ m ∈ st.sendQueue, fits m = true) :
    ∃ st' new, flushUnreliable reliableReceived orderedReceived st = .ok st' ∧
      DrainedInto reliableReceived orderedReceived st new st' ∧ st'.sendQueue = [] := by
  have hshrinks : ∀ st1 : UnreliableState S, (∀ m ∈ st1.sendQueue, fits m = true) →
      unreliableGuard st1 = true →
      (∀ m ∈ (unreliableBody reliableReceived orderedReceived st1).sendQueue, fits m = true) ∧
      (unreliableBody reliableReceived orderedReceived st1).sendQueue.length <
        st1.sendQueue.length := by
    intro st1 h1 hg
    refine ⟨fun m hm => h1 m (List.mem_of_mem_drop hm), ?_⟩
    cases hq : st1.sendQueue with
    | nil => simp [unreliableGuard, hq] at hg
    | cons m ms =>
      have hpos := includedMsgs_pos (h1 m (by simp [hq])) ms
      simp only [unreliableBody, hq, List.length_drop, List.length_cons]
      omega
  obtain ⟨st', hrun⟩ := runWhile_total
    (P := fun st : UnreliableState S => ∀ m ∈ st.sendQueue, fits m = true)
    (μ := fun st : UnreliableState S => st.sendQueue.length) hshrinks hfits (Nat.le_refl _)
  have hkeep : ∀ st1, (∃ new, DrainedInto reliableReceived orderedReceived st new st1) →
      unreliableGuard st1 = true → ∃ new, DrainedInto reliableReceived orderedReceived st new
        (unreliableBody reliableReceived orderedReceived st1) := by
    rintro st1 ⟨new, h⟩ -
    obtain ⟨packet, h'⟩ := h.body
    exact ⟨new ++ [packet], h'⟩
  obtain ⟨⟨new, hnew⟩, hguard⟩ := runWhile_invariant hkeep ⟨[], .start st⟩ hrun
  refine ⟨st', new, by unfold flushUnreliable; rw [hrun], hnew, ?_⟩
  simpa [unreliableGuard] using hguard

end Unreliable

/-! ## Packets can be written -/

/-- A codec whose writer, on a slice that is long enough, writes `byteLen` bytes and no more. -/
def ExactWrites (S : Type) [ByteRepr S] : Prop :=
  ∀ (m : S) (bytes : Bytes), ByteRepr.byteLen m ≤ bytes.length → ∃ written : Bytes,
    written.length = ByteRepr.byteLen m ∧ ByteRepr.writeToBytes m bytes =
      (written ++ bytes.drop (ByteRepr.byteLen m), .ok ())

/-- The writer returns on every slice of at least `n` bytes and keeps its length. -/
def Succeeds (w : Write Unit) (n : Nat) : Prop :=
  ∀ bytes : Bytes, n ≤ bytes.length → (w bytes).2 = .ok () ∧ (w bytes).1.length = bytes.length

namespace Succeeds

variable {w v : Write Unit} {n : Nat}

theorem of_writes {a : Nat} {bs : Bytes} (h : Writes w a bs) (hn : a + bs.length ≤ n) :
    Succeeds w n := fun bytes hb => by
  rw [h bytes (by omega)]
  refine ⟨rfl, ?_⟩
  simp only [List.length_append, List.length_take, List.length_drop]
  omega

theorem seq (hw : Succeeds w n) (hv : Succeeds v n) : Succeeds (do w; v) n := fun bytes hb => by
  obtain ⟨hok, hlen⟩ := hw bytes hb
  have e : (do w; v : Write Unit) bytes = v (w bytes).1 := by
    show Write.bind w (fun _ => v) bytes = _
    unfold Write.bind
    split
    · rename_i h; rw [h]
    all_goals rename_i h; rw [h] at hok; cases hok
  rw [e]
  obtain ⟨hok', hlen'⟩ := hv (w bytes).1 (by omega)
  exact ⟨hok', hlen'.trans hlen⟩

theorem suffix {a : Nat} (hw : Succeeds w n) : Succeeds (.suffix a w) (a + n) :=
  fun bytes hb => by
    obtain ⟨hok, hlen⟩ := hw (bytes.drop a) (by rw [List.length_drop]; omega)
    simp only [Write.suffix, if_pos (show a ≤ bytes.length by omega), List.length_append, hlen,
      List.length_take, List.length_drop]
    exact ⟨hok, by omega⟩

theorem mono {m : Nat} (h : Succeeds w n) (hle : n ≤ m) : Succeeds w m :=
  fun bytes hb => h bytes (Nat.le_trans hle hb)

theorem messages (hexact : ExactWrites S) (messages : List S) (a : Nat) :
    Succeeds (Packet.writeMessages messages a) (a + Packet.dataLen messages) := by
  induction messages generalizing a with
  | nil => exact of_writes (.pure a) (by simp)
  | cons m ms ih =>
    have hsum : Packet.dataLen (m :: ms) = ByteRepr.byteLen m + Packet.dataLen ms := rfl
    have hone : Succeeds (ByteRepr.writeToBytes m) (ByteRepr.byteLen m) := fun bytes hb => by
      obtain ⟨written, hlen, e⟩ := hexact m bytes hb
      rw [e]
      refine ⟨rfl, ?_⟩
      rw [List.length_append, List.length_drop]
      omega
    rw [hsum]
    refine .seq (hone.suffix.mono (by omega)) ((ih _).mono (by omega))

theorem packet (hexact : ExactWrites S) (packet : Packet S) :
    Succeeds packet.writeToBytes packet.byteLen := by
  have hlen : packet.byteLen = 20 + Packet.dataLen packet.messages := by
    rw [Packet.byteLen, PacketAck.byteLen]
  rw [hlen]
  refine .seq (of_writes (.range 0 _) ?_) (.seq (of_writes (.range 1 _) ?_)
    (.seq (of_writes (.range 2 _) ?_) (.seq (of_writes (packet.ack.writes.suffix 6) ?_) ?_)))
  · rw [List.length_singleton]; omega
  · rw [List.length_singleton]; omega
  · rw [length_toLe]; omega
  · rw [PacketAck.length_encode]; omega
  · exact messages hexact packet.messages 20

end Succeeds

/-- A packet within the bound is written into the data buffer, whatever it held. -/
theorem writeDatagram_ok (hexact : ExactWrites S) (ctx : MiniUdpContext) {packet : Packet S}
    (h : Packet.dataLen packet.messages ≤ MAX_PACKET_DATA_LEN) (buf : DataBuffer) :
    ∃ buf' d, writeDatagram ctx packet buf = (buf', .ok d) ∧ d.length = 4 + packet.byteLen ∧
      d.length ≤ MAX_PACKET_LEN := by
  have hmax := byteLen_le h
  have hbuf := buf.length_eq
  obtain ⟨hok, -⟩ := Succeeds.packet hexact packet (buf.bytes.drop 4)
    (by rw [List.length_drop]; omega)
  generalize hw : packet.writeToBytes (buf.bytes.drop 4) = written at hok
  obtain ⟨body, result⟩ := written
  obtain rfl : result = .ok () := hok
  generalize hbuf1 : buf.overwrite (buf.bytes.take 4 ++ body) = buf1
  have hlen1 := buf1.length_eq
  have hslice : sliceOf buf1.bytes 4 (4 + packet.byteLen) =
      .ok ((buf1.bytes.take (4 + packet.byteLen)).drop 4) := if_pos ⟨by omega, by omega⟩
  have hlen2 := (buf1.overwrite (toLe 4
    (ctx.crc ((buf1.bytes.take (4 + packet.byteLen)).drop 4)).toNat)).length_eq
  unfold writeDatagram
  simp only [hw, hbuf1, hslice]
  refine ⟨_, _, rfl, ?_, ?_⟩
  · rw [List.length_take]; omega
  · rw [List.length_take]; omega

theorem ExactWrites.of_lawful [LawfulByteRepr S] : ExactWrites S := fun m bytes h => by
  refine ⟨LawfulByteRepr.encode m, LawfulByteRepr.length_encode m, ?_⟩
  rw [LawfulByteRepr.writes m bytes (by rw [LawfulByteRepr.length_encode]; omega)]
  simp [LawfulByteRepr.length_encode]

/-! ## All three queues -/

namespace InnerUdpCommunicator

variable {Buf : Type}

/-- What a flush has made of the three queues, and that every packet it built can be written. -/
def FlushPartitions (com : InnerUdpCommunicator S R) (now : Instant)
    (socket : UdpCommunicatorSocket Buf) : Prop :=
  ∃ (unordered ordered : FlushState S) (unreliable : UnreliableState S) (new : List (Packet S)),
    com.flush now socket =
      .ok (com.flushed unordered ordered unreliable, unordered.built ++ ordered.built) ∧
    Flushed now socket.maxReliableUnorderedRetries com.reliableReceivedPackets
      com.reliableOrderedReceivedPackets false com.reliableSendPackets com.reliableSendQueue
      unordered ∧
    Flushed now socket.maxReliableOrderedRetries com.reliableReceivedPackets
      com.reliableOrderedReceivedPackets true com.reliableOrderedSendPackets
      com.reliableOrderedSendQueue ordered ∧
    DrainedInto com.reliableReceivedPackets com.reliableOrderedReceivedPackets
      ⟨com.unreliableSendPacketId, com.unreliableSendPackets, com.unreliableSendQueue⟩ new
      unreliable ∧
    unreliable.sendQueue = [] ∧
    ∀ packet ∈ unordered.built ++ ordered.built ++ new, ∀ ctx buf, ∃ buf' d,
      writeDatagram ctx packet buf = (buf', .ok d) ∧ d.length = 4 + packet.byteLen ∧
      d.length ≤ MAX_PACKET_LEN

theorem Packed.dataLen_le {packets : List (Packet S)} {queue rest : List S}
    (h : Packed packets queue rest) :
    ∀ p ∈ packets, Packet.dataLen p.messages ≤ MAX_PACKET_DATA_LEN :=
  fun p hp => Chunked.within h p.messages (List.mem_map_of_mem hp)

/-- Flushing loses, doubles and reorders no message of the three queues, and builds only packets
that can be written. -/
theorem flush_partitions (hexact : ExactWrites S) (com : InnerUdpCommunicator S R) (now : Instant)
    (socket : UdpCommunicatorSocket Buf)
    (hfits : ∀ m ∈ com.unreliableSendQueue, fits m = true) : com.FlushPartitions now socket := by
  obtain ⟨unordered, hu, hflushedU⟩ := flushMessages_spec now socket.maxReliableUnorderedRetries
    com.reliableReceivedPackets com.reliableOrderedReceivedPackets false com.reliableSendPackets
    com.reliableSendQueue
  obtain ⟨ordered, ho, hflushedO⟩ := flushMessages_spec now socket.maxReliableOrderedRetries
    com.reliableReceivedPackets com.reliableOrderedReceivedPackets true
    com.reliableOrderedSendPackets com.reliableOrderedSendQueue
  obtain ⟨unreliable, new, hr, hdrained, hempty⟩ := flushUnreliable_spec
    com.reliableReceivedPackets com.reliableOrderedReceivedPackets
    ⟨com.unreliableSendPacketId, com.unreliableSendPackets, com.unreliableSendQueue⟩ hfits
  refine ⟨unordered, ordered, unreliable, new, ?_, hflushedU, hflushedO, hdrained, hempty, ?_⟩
  · exact flush_eq_ok.mpr ⟨unordered, ordered, unreliable, hu, ho, hr, rfl, rfl⟩
  · intro packet hp ctx buf
    refine writeDatagram_ok hexact ctx ?_ buf
    rcases List.mem_append.mp hp with hp | hp
    · rcases List.mem_append.mp hp with hp | hp
      · exact Packed.dataLen_le hflushedU.packed packet hp
      · exact Packed.dataLen_le hflushedO.packed packet hp
    · exact Packed.dataLen_le hdrained.packed packet hp

/-- Messages in all three queues, from a state that has sent nothing. -/
theorem flush_partitions_fresh :
    ({ reliableSendQueue := [true], reliableOrderedSendQueue := [false, true],
       unreliableSendQueue := [true, true], lastSeen := 0, lastSend := 0 } :
      InnerUdpCommunicator Bool Bool).FlushPartitions 7
        ({ dataBuffer := () } : UdpCommunicatorSocket Unit) :=
  flush_partitions .of_lawful _ 7 _ (by decide)

end InnerUdpCommunicator

end MiniUdp
