import MiniUdp.Communicator.Inner
import Mathlib.Data.List.TakeWhile

/-!
# Flushing

The three loops that move messages from the queues into packets. The loop over
a reliable queue always ends, since its window fills up (`flush_halts`).
A message above `MAX_PACKET_DATA_LEN` at the head of a queue fits no packet: a
loop that gets to it takes no message out any more and builds empty packets.
`flush_ends_iff` says when none of the loops gets there.
-/

namespace MiniUdp

open Serial While

variable {S R : Type} [ByteRepr S]

/-! ## Greedy packing -/

/-- Is the message small enough for a packet of its own? -/
def fits (msg : S) : Bool := decide (ByteRepr.byteLen msg ≤ MAX_PACKET_DATA_LEN)

/-- What one iteration leaves of a queue. -/
def afterPacket (queue : List S) : List S := queue.drop (includedMsgs MAX_PACKET_DATA_LEN queue)

/-- The packets opened for the messages when the current one has `availableBytes` left. -/
def packetsAfter : Nat → List S → Nat
  | _, [] => 0
  | availableBytes, msg :: msgs =>
    if ByteRepr.byteLen msg ≤ availableBytes then
      packetsAfter (availableBytes - ByteRepr.byteLen msg) msgs
    else packetsAfter (MAX_PACKET_DATA_LEN - ByteRepr.byteLen msg) msgs + 1

/-- The packets that greedy packing fills with the messages. -/
def packetCount (msgs : List S) : Nat :=
  if msgs.isEmpty then 0 else packetsAfter MAX_PACKET_DATA_LEN msgs + 1

theorem includedMsgs_le (availableBytes : Nat) (msgs : List S) :
    includedMsgs availableBytes msgs ≤ msgs.length := by
  induction msgs generalizing availableBytes with
  | nil => exact Nat.le_refl 0
  | cons msg msgs ih =>
    unfold includedMsgs
    split
    · have := ih (availableBytes - ByteRepr.byteLen msg)
      simp only [List.length_cons]; omega
    · omega

/-- The messages included never take more than the available bytes. -/
theorem dataLen_includedMsgs (availableBytes : Nat) (msgs : List S) :
    Packet.dataLen (msgs.take (includedMsgs availableBytes msgs)) ≤ availableBytes := by
  induction msgs generalizing availableBytes with
  | nil => simp [Packet.dataLen]
  | cons msg msgs ih =>
    unfold includedMsgs
    split
    · have := ih (availableBytes - ByteRepr.byteLen msg)
      simp only [Packet.dataLen, List.take_succ_cons, List.map_cons, List.sum_cons] at this ⊢
      omega
    · simp [Packet.dataLen]

theorem includedMsgs_pos {msg : S} (h : fits msg = true) (msgs : List S) :
    0 < includedMsgs MAX_PACKET_DATA_LEN (msg :: msgs) := by
  rw [includedMsgs, if_pos (by simpa [fits] using h)]
  omega

theorem includedMsgs_oversize {msg : S} (h : fits msg = false) {availableBytes : Nat}
    (ha : availableBytes ≤ MAX_PACKET_DATA_LEN) (msgs : List S) :
    includedMsgs availableBytes (msg :: msgs) = 0 := by
  rw [includedMsgs, if_neg]
  simp only [fits, decide_eq_false_iff_not] at h
  omega

theorem packetsAfter_eq {msgs : List S} (hfits : ∀ m ∈ msgs, fits m = true)
    (availableBytes : Nat) : packetsAfter availableBytes msgs =
    packetCount (msgs.drop (includedMsgs availableBytes msgs)) := by
  induction msgs generalizing availableBytes with
  | nil => rfl
  | cons msg msgs ih =>
    unfold packetsAfter includedMsgs
    split
    · exact ih (fun m hm => hfits m (by simp [hm])) _
    · have hm : ByteRepr.byteLen msg ≤ MAX_PACKET_DATA_LEN := by
        simpa [fits] using hfits msg (by simp)
      simp [packetCount, packetsAfter, hm]

theorem packetCount_eq {msgs : List S} (hfits : ∀ m ∈ msgs, fits m = true) (hne : msgs ≠ []) :
    packetCount msgs = packetCount (afterPacket msgs) + 1 := by
  rw [packetCount, if_neg (by simpa using hne), packetsAfter_eq hfits, afterPacket]

/-- Messages from the first one that fits no packet on play no part in packing those before. -/
theorem afterPacket_append {msgs rest : List S} (hrest : ∀ m ∈ rest.head?, fits m = false) :
    afterPacket (msgs ++ rest) = afterPacket msgs ++ rest := by
  have key : ∀ (msgs : List S) (availableBytes : Nat), availableBytes ≤ MAX_PACKET_DATA_LEN →
      includedMsgs availableBytes (msgs ++ rest) = includedMsgs availableBytes msgs := by
    intro msgs
    induction msgs with
    | nil =>
      intro a ha
      cases rest with
      | nil => rfl
      | cons msg rest => exact includedMsgs_oversize (hrest msg rfl) ha rest
    | cons msg msgs ih =>
      intro a ha
      simp only [List.cons_append, includedMsgs]
      split
      · rw [ih _ (by omega)]
      · rfl
  rw [afterPacket, key msgs _ (Nat.le_refl _), List.drop_append_of_le_length (includedMsgs_le _ _)]
  rfl

/-- What is left after the first packets of a queue whose head `msgs` fits and whose rest starts
with a message that does not. -/
theorem iterate_afterPacket {msgs rest : List S} (hrest : ∀ m ∈ rest.head?, fits m = false)
    (hfits : ∀ m ∈ msgs, fits m = true) {n : Nat} (hn : n ≤ packetCount msgs) :
    ∃ left, afterPacket^[n] (msgs ++ rest) = left ++ rest ∧ (∀ m ∈ left, fits m = true) ∧
      packetCount left = packetCount msgs - n := by
  induction n with
  | zero => exact ⟨msgs, rfl, hfits, by omega⟩
  | succ n ih =>
    obtain ⟨left, hleft, hfits', hcount⟩ := ih (by omega)
    have hne : left ≠ [] := by
      rintro rfl
      have : packetCount ([] : List S) = 0 := rfl
      omega
    refine ⟨afterPacket left, ?_, fun m hm => hfits' m (List.mem_of_mem_drop hm), ?_⟩
    · rw [Function.iterate_succ_apply', hleft, afterPacket_append hrest]
    · have := packetCount_eq hfits' hne
      omega

theorem packetCount_eq_zero {msgs : List S} (h : packetCount msgs = 0) : msgs = [] := by
  by_contra hne
  rw [packetCount, if_neg (by simpa using hne)] at h
  omega

/-! ## The window while it fills up -/

/-- The places left in a window: its oldest numbers up to the first that is taken. -/
def freeSlots {T : Type} (r : RingBuffer T 32) : Nat :=
  r.window.findIdx fun i => (r.get i).isSome

theorem lt_freeSlots_iff {T : Type} {r : RingBuffer T 32} {m : Int} (hm : r.newest = seq m)
    {n : Nat} : n < freeSlots r ↔ n < 32 ∧ ∀ j ≤ n, r.get (seq (m + j - 31)) = none := by
  have hw : r.window = (List.range 32).map fun j : Nat => seq (m + 1 - 32 + j) :=
    RingBuffer.window_seq hm
  have hlen : r.window.length = 32 := by rw [hw]; simp
  have hget : ∀ j : Nat, ∀ h : j < r.window.length, r.window[j] = seq (m + j - 31) := by
    intro j h
    simp only [hw, List.getElem_map, List.getElem_range]
    congr 1; omega
  constructor
  · intro h
    have h32 : n < 32 := by
      have : r.window.findIdx (fun i => (r.get i).isSome) ≤ r.window.length :=
        List.findIdx_le_length
      rw [freeSlots] at h; omega
    refine ⟨h32, fun j hj => ?_⟩
    have := List.not_of_lt_findIdx (Nat.lt_of_le_of_lt hj h)
    rw [hget] at this
    simpa using this
  · rintro ⟨h32, h⟩
    refine List.lt_findIdx_of_not (by omega) fun j hj => ?_
    rw [hget, h j hj]
    simp

section Loops

variable {now : Instant} {retries : Nat} {reliableReceived : RingBuffer Unit 32}
  {orderedReceived : RingBuffer (Packet R) 32} {ordered : Bool}

theorem iterate_newest (st : FlushState S) {m : Int} (hm : st.sendPackets.newest = seq m)
    (n : Nat) : ((flushBody now retries reliableReceived orderedReceived ordered)^[n]
      st).sendPackets.newest = seq (m + n) := by
  induction n with
  | zero => simpa using hm
  | succ n ih =>
    rw [Function.iterate_succ_apply', flushBody, RingBuffer.newest_push, ih, ← seq_add_one]
    congr 1; omega

theorem iterate_queue (st : FlushState S) (n : Nat) :
    ((flushBody now retries reliableReceived orderedReceived ordered)^[n] st).sendQueue =
      afterPacket^[n] st.sendQueue := by
  induction n with
  | zero => rfl
  | succ n ih => rw [Function.iterate_succ_apply', Function.iterate_succ_apply', ← ih]; rfl

/-- After `n` iterations the newest `n` numbers are taken, the others are as they were. -/
theorem iterate_get (st : FlushState S) {m : Int} (hm : st.sendPackets.newest = seq m) (n : Nat)
    {j : Nat} (hj : j < 32) :
    (((flushBody now retries reliableReceived orderedReceived ordered)^[n]
      st).sendPackets.get (seq (m + n - j))).isSome =
    (decide (j < n) || (st.sendPackets.get (seq (m + n - j))).isSome) := by
  induction n generalizing j with
  | zero => simp
  | succ n ih =>
    have hnew : ((flushBody now retries reliableReceived orderedReceived ordered)^[n]
        st).sendPackets.newest = seq (m + n) := iterate_newest st hm n
    rw [Function.iterate_succ_apply', flushBody]
    simp only [RingBuffer.get_push, hnew, ← seq_add_one]
    cases j with
    | zero => simp [add_assoc]
    | succ j =>
      have hne : seq (m + (n + 1 : Nat) - (j + 1 : Nat)) ≠ seq (m + n + 1) := fun h => by
        have := seq_inj h (by omega) (by omega); omega
      have hd : (seq (m + n + 1) - seq (m + (n + 1 : Nat) - (j + 1 : Nat))).toNat < 32 := by
        rw [dist_seq]; omega
      have e : m + (n + 1 : Nat) - (j + 1 : Nat) = m + n - j := by omega
      rw [if_neg hne, if_pos hd, e, ih (by omega)]
      simp

/-- The loop goes on after `n` iterations if the next place is free and the queue not empty. -/
theorem guard_iterate (st : FlushState S) {m : Int} (hm : st.sendPackets.newest = seq m)
    (n : Nat) :
    flushGuard ((flushBody now retries reliableReceived orderedReceived ordered)^[n] st) = true ↔
      n < 32 ∧ st.sendPackets.get (seq (m + n - 31)) = none ∧ afterPacket^[n] st.sendQueue ≠ [] := by
  have hnext : seq (m + n) + 1 - UInt16.ofNat 32 = seq (m + n - (31 : Nat)) := by
    have h32 : (UInt16.ofNat 32) = seq 32 := rfl
    rw [h32, ← seq_add_one, ← seq_sub]
    congr 1; omega
  rw [flushGuard, RingBuffer.pushWillOverride_eq, iterate_newest st hm, hnext,
    iterate_get st hm n (by omega), iterate_queue]
  simp only [Bool.not_or, Bool.and_eq_true, Bool.not_eq_true', decide_eq_false_iff_not,
    Option.isSome_eq_false_iff, Option.isNone_iff_eq_none, List.isEmpty_eq_false_iff, and_assoc]
  exact and_congr_left' (by omega)

/-- The window has 32 places, so the loop over a reliable queue always ends. -/
theorem flush_halts (st : FlushState S) :
    Halts flushGuard (flushBody now retries reliableReceived orderedReceived ordered) st := by
  refine ⟨32, ?_⟩
  rw [← Bool.not_eq_true, guard_iterate st (seq_toNat _).symm]
  omega

end Loops

/-! ## Loops that pack a queue -/

section Packing

variable {σ : Type} {guard : σ → Bool} {body : σ → σ} {queue : σ → List S}
  {built : σ → List (Packet S)}

/-- Every iteration moves what fits from the front of the queue into a new packet. -/
structure PackingLoop (body : σ → σ) (queue : σ → List S) (built : σ → List (Packet S)) : Prop where
  queue_body : ∀ s, queue (body s) = afterPacket (queue s)
  built_body : ∀ s, ∃ p : Packet S, built (body s) = built s ++ [p] ∧
    p.messages = (queue s).take (includedMsgs MAX_PACKET_DATA_LEN (queue s))

/-- The loop ends, each of its iterations takes a message from the queue, and it builds no packet
without messages. -/
structure Ends (guard : σ → Bool) (body : σ → σ) (queue : σ → List S)
    (built : σ → List (Packet S)) (s : σ) : Prop where
  halts : Halts guard body s
  progresses : Progresses guard body (fun s => (queue s).length) s
  nonempty : ∀ n, (∀ m < n, guard (body^[m] s) = true) →
    ∀ p ∈ built (body^[n] s), p ∈ built s ∨ p.messages ≠ []

namespace PackingLoop

variable (h : PackingLoop body queue built) {s : σ}
include h

theorem iterate_queue (n : Nat) : queue (body^[n] s) = afterPacket^[n] (queue s) := by
  induction n with
  | zero => rfl
  | succ n ih => rw [Function.iterate_succ_apply', Function.iterate_succ_apply', h.queue_body, ih]

/-- An iteration takes messages out just when it includes some. -/
theorem length_lt_iff (n : Nat) : (queue (body^[n + 1] s)).length < (queue (body^[n] s)).length ↔
    0 < includedMsgs MAX_PACKET_DATA_LEN (queue (body^[n] s)) := by
  have := includedMsgs_le MAX_PACKET_DATA_LEN (queue (body^[n] s))
  rw [Function.iterate_succ_apply', h.queue_body, afterPacket, List.length_drop]
  omega

theorem nonempty_of_progresses (hp : Progresses guard body (fun s => (queue s).length) s) (n : Nat)
    (hg : ∀ m < n, guard (body^[m] s) = true) :
    ∀ p ∈ built (body^[n] s), p ∈ built s ∨ p.messages ≠ [] := by
  induction n with
  | zero => exact fun p hp => .inl hp
  | succ n ih =>
    intro p hmem
    obtain ⟨q, hq, hmsgs⟩ := h.built_body (body^[n] s)
    rw [Function.iterate_succ_apply', hq, List.mem_append, List.mem_singleton] at hmem
    rcases hmem with hmem | rfl
    · exact ih (fun m hm => hg m (by omega)) p hmem
    · have hpos := (h.length_lt_iff n).mp (hp n fun m hm => hg m (by omega))
      refine .inr fun hnil => ?_
      have := congrArg List.length (hmsgs.symm.trans hnil)
      have hle := includedMsgs_le MAX_PACKET_DATA_LEN (queue (body^[n] s))
      rw [List.length_take, List.length_nil] at this
      omega

/-- Let the loop go on after `n` iterations just when the place `n` is open and the queue is not
empty. It makes progress all the way just when every message fits, or some place is closed no later
than the packets before the first message that does not. -/
theorem progresses_iff {isOpen : Nat → Prop}
    (hguard : ∀ n, guard (body^[n] s) = true ↔ isOpen n ∧ queue (body^[n] s) ≠ []) :
    Progresses guard body (fun s => (queue s).length) s ↔
      (∀ m ∈ queue s, fits m = true) ∨
      ¬ ∀ j ≤ packetCount ((queue s).takeWhile fits), isOpen j := by
  have hsplit := List.takeWhile_append_dropWhile (p := fits) (l := queue s)
  have hfits : ∀ m ∈ (queue s).takeWhile fits, fits m = true := fun m hm => by
    simpa using List.mem_takeWhile_imp hm
  have hrest : ∀ m ∈ ((queue s).dropWhile fits).head?, fits m = false := fun m hm => by
    have := List.head?_dropWhile_not fits (queue s)
    rw [Option.mem_def.mp hm] at this
    simpa using this
  have hall : (∀ m ∈ queue s, fits m = true) ↔ (queue s).dropWhile fits = [] := by
    rw [List.dropWhile_eq_nil_iff]
  -- the queue after the first packets, and what the next iteration does there
  have hq : ∀ n ≤ packetCount ((queue s).takeWhile fits), ∃ left,
      queue (body^[n] s) = left ++ (queue s).dropWhile fits ∧ (∀ m ∈ left, fits m = true) ∧
      packetCount left = packetCount ((queue s).takeWhile fits) - n := by
    intro n hn
    rw [h.iterate_queue]
    obtain ⟨left, hl⟩ := iterate_afterPacket hrest hfits hn
    rw [hsplit] at hl
    exact ⟨left, hl⟩
  constructor
  · intro hp
    by_contra hc
    rw [not_or, not_not, hall] at hc
    obtain ⟨hne, hopen⟩ := hc
    have hg : ∀ m ≤ packetCount ((queue s).takeWhile fits), guard (body^[m] s) = true := by
      intro m hm
      obtain ⟨left, hl, -⟩ := hq m hm
      exact (hguard m).mpr ⟨hopen m hm, by rw [hl]; simp [hne]⟩
    obtain ⟨left, hl, -, hcount⟩ := hq _ (Nat.le_refl _)
    rw [Nat.sub_self] at hcount
    obtain rfl := packetCount_eq_zero hcount
    have hpos := (h.length_lt_iff _).mp (hp _ hg)
    obtain ⟨m, ms, hms⟩ := List.exists_cons_of_ne_nil hne
    rw [hl, List.nil_append, hms, includedMsgs_oversize (hrest m (by rw [hms]; rfl)) (Nat.le_refl _)]
      at hpos
    omega
  · intro hcond n hg
    have hlt : n < packetCount ((queue s).takeWhile fits) := by
      by_contra hge
      rw [Nat.not_lt] at hge
      rcases hcond with hfit | hclosed
      · -- the queue is empty once all packets are filled
        obtain ⟨left, hl, -, hcount⟩ := hq _ (Nat.le_refl _)
        rw [Nat.sub_self] at hcount
        rw [packetCount_eq_zero hcount, hall.mp hfit] at hl
        exact ((hguard _).mp (hg _ hge)).2 hl
      · exact hclosed fun j hj => ((hguard j).mp (hg j (by omega))).1
    obtain ⟨left, hl, hfit, hcount⟩ := hq n (by omega)
    refine (h.length_lt_iff n).mpr ?_
    cases left with
    | nil =>
      have : packetCount ([] : List S) = 0 := rfl
      omega
    | cons m ms => rw [hl]; exact includedMsgs_pos (hfit m (by simp)) _

end PackingLoop

end Packing

/-! ## The three loops -/

section Ends

variable {now : Instant} {retries : Nat} {reliableReceived : RingBuffer Unit 32}
  {orderedReceived : RingBuffer (Packet R) 32} {ordered : Bool}

theorem packing_reliable : PackingLoop (S := S)
    (flushBody now retries reliableReceived orderedReceived ordered) FlushState.sendQueue
    FlushState.built :=
  ⟨fun _ => rfl, fun _ => ⟨_, rfl, rfl⟩⟩

theorem packing_unreliable : PackingLoop (S := S) (unreliableBody reliableReceived orderedReceived)
    UnreliableState.sendQueue UnreliableState.sendPackets :=
  ⟨fun _ => rfl, fun _ => ⟨_, rfl, rfl⟩⟩

/-- The messages fit, or the window is full before the first that does not is at the head. -/
def PacksWell {T : Type} (sendPackets : RingBuffer T 32) (sendQueue : List S) : Prop :=
  (∀ m ∈ sendQueue, fits m = true) ∨
    freeSlots sendPackets ≤ packetCount (sendQueue.takeWhile fits)

theorem reliable_ends_iff (st : FlushState S) :
    Ends flushGuard (flushBody now retries reliableReceived orderedReceived ordered)
      FlushState.sendQueue FlushState.built st ↔ PacksWell st.sendPackets st.sendQueue := by
  have hm := (seq_toNat st.sendPackets.newest).symm
  have hloop : PackingLoop (flushBody now retries reliableReceived orderedReceived ordered)
      FlushState.sendQueue FlushState.built := packing_reliable (S := S)
  -- a place is open if the window has it and holds nothing there
  have hguard : ∀ n, flushGuard ((flushBody now retries reliableReceived orderedReceived
      ordered)^[n] st) = true ↔ (n < 32 ∧
        st.sendPackets.get (seq (st.sendPackets.newest.toNat + n - 31)) = none) ∧
      ((flushBody now retries reliableReceived orderedReceived ordered)^[n] st).sendQueue ≠ [] :=
    fun n => by rw [guard_iterate st hm, hloop.iterate_queue, and_assoc]
  have hiff := hloop.progresses_iff hguard
  have hfree : (∀ j ≤ packetCount (st.sendQueue.takeWhile fits), j < 32 ∧
      st.sendPackets.get (seq (st.sendPackets.newest.toNat + j - 31)) = none) ↔
      packetCount (st.sendQueue.takeWhile fits) < freeSlots st.sendPackets := by
    rw [lt_freeSlots_iff hm]
    exact ⟨fun h => ⟨(h _ (Nat.le_refl _)).1, fun j hj => (h j hj).2⟩,
      fun h j hj => ⟨by omega, h.2 j hj⟩⟩
  rw [hfree, Nat.not_lt] at hiff
  exact ⟨fun h => hiff.mp h.progresses, fun h =>
    ⟨flush_halts st, hiff.mpr h, hloop.nonempty_of_progresses (hiff.mpr h)⟩⟩

theorem unreliable_ends_iff (st : UnreliableState S) :
    Ends unreliableGuard (unreliableBody reliableReceived orderedReceived)
      UnreliableState.sendQueue UnreliableState.sendPackets st ↔
      ∀ m ∈ st.sendQueue, fits m = true := by
  have hloop : PackingLoop (unreliableBody reliableReceived orderedReceived)
      UnreliableState.sendQueue UnreliableState.sendPackets := packing_unreliable (S := S)
  have hguard : ∀ n, unreliableGuard ((unreliableBody reliableReceived orderedReceived)^[n] st) =
      true ↔ (fun _ => True) n ∧
        ((unreliableBody reliableReceived orderedReceived)^[n] st).sendQueue ≠ [] :=
    fun n => by simp [unreliableGuard]
  have hiff := hloop.progresses_iff hguard
  simp only [implies_true, not_true, or_false] at hiff
  exact ⟨fun h => hiff.mp h.progresses, fun h =>
    ⟨(hiff.mpr h).halts, hiff.mpr h, hloop.nonempty_of_progresses (hiff.mpr h)⟩⟩

end Ends

namespace InnerUdpCommunicator

/-- Each loop of `flush_messages` ends, takes a message out in each of its iterations and builds no
packet without messages. -/
structure FlushEnds {Buf : Type} (com : InnerUdpCommunicator S R) (now : Instant)
    (socket : UdpCommunicatorSocket Buf) : Prop where
  unordered : Ends flushGuard (flushBody now socket.maxReliableUnorderedRetries
      com.reliableReceivedPackets com.reliableOrderedReceivedPackets false)
    FlushState.sendQueue FlushState.built
    { sendPackets := com.reliableSendPackets, sendQueue := com.reliableSendQueue }
  ordered : Ends flushGuard (flushBody now socket.maxReliableOrderedRetries
      com.reliableReceivedPackets com.reliableOrderedReceivedPackets true)
    FlushState.sendQueue FlushState.built
    { sendPackets := com.reliableOrderedSendPackets, sendQueue := com.reliableOrderedSendQueue }
  unreliable : Ends unreliableGuard
    (unreliableBody com.reliableReceivedPackets com.reliableOrderedReceivedPackets)
    UnreliableState.sendQueue UnreliableState.sendPackets
    { sendPacketId := com.unreliableSendPacketId
      sendPackets := com.unreliableSendPackets
      sendQueue := com.unreliableSendQueue }

/-- Flushing ends and makes progress just when every unreliable message fits a packet and no
reliable loop gets to a message that does not. -/
theorem flush_ends_iff {Buf : Type} (com : InnerUdpCommunicator S R) (now : Instant)
    (socket : UdpCommunicatorSocket Buf) : com.FlushEnds now socket ↔
      (∀ m ∈ com.unreliableSendQueue, fits m = true) ∧
      PacksWell com.reliableSendPackets com.reliableSendQueue ∧
      PacksWell com.reliableOrderedSendPackets com.reliableOrderedSendQueue := by
  constructor
  · intro h
    exact ⟨(unreliable_ends_iff _).mp h.unreliable, (reliable_ends_iff _).mp h.unordered,
      (reliable_ends_iff _).mp h.ordered⟩
  · rintro ⟨hunreliable, hunordered, hordered⟩
    exact ⟨(reliable_ends_iff _).mpr hunordered, (reliable_ends_iff _).mpr hordered,
      (unreliable_ends_iff _).mpr hunreliable⟩

/-- A vector of 1021 elements takes 1025 bytes. -/
def oversize : List Bool := List.replicate 1021 true

/-- One message that fits no packet in the unreliable queue, and flushing never ends. -/
theorem flush_oversize_endless :
    let com : InnerUdpCommunicator (List Bool) Bool :=
      { unreliableSendQueue := [oversize], lastSeen := 0, lastSend := 0 }
    ¬ Halts unreliableGuard
        (unreliableBody com.reliableReceivedPackets com.reliableOrderedReceivedPackets)
        { sendPacketId := com.unreliableSendPacketId
          sendPackets := com.unreliableSendPackets
          sendQueue := com.unreliableSendQueue } ∧
      ¬ com.FlushEnds 0 ({ dataBuffer := () } : UdpCommunicatorSocket Unit) := by
  intro com
  have hfits : fits oversize = false := by decide +kernel
  have hendless : ¬ Halts unreliableGuard
      (unreliableBody com.reliableReceivedPackets com.reliableOrderedReceivedPackets)
      { sendPacketId := com.unreliableSendPacketId
        sendPackets := com.unreliableSendPackets
        sendQueue := com.unreliableSendQueue } := by
    refine not_halts (P := fun st => st.sendQueue = [oversize]) (fun st hst => ?_) rfl
    refine ⟨by rw [unreliableGuard, hst]; rfl, ?_⟩
    rw [packing_unreliable.queue_body, hst, afterPacket,
      includedMsgs_oversize hfits (Nat.le_refl _)]
    rfl
  exact ⟨hendless, fun h => hendless h.unreliable.halts⟩

/-! ## What a flush leaves -/

section Flushed

variable {Buf : Type}

/-- The communicator with what the three loops of a flush leave. -/
def flushed (com : InnerUdpCommunicator S R) (unordered ordered : FlushState S)
    (unreliable : UnreliableState S) : InnerUdpCommunicator S R :=
  { com with
    reliableSendPackets := unordered.sendPackets
    reliableSendQueue := unordered.sendQueue
    reliableOrderedSendPackets := ordered.sendPackets
    reliableOrderedSendQueue := ordered.sendQueue
    unreliableSendPacketId := unreliable.sendPacketId
    unreliableSendPackets := unreliable.sendPackets
    unreliableSendQueue := unreliable.sendQueue }

theorem flush_eq_ok {com com' : InnerUdpCommunicator S R} {now : Instant}
    {socket : UdpCommunicatorSocket Buf} {packets : List (Packet S)} :
    com.flush now socket = .ok (com', packets) ↔ ∃ unordered ordered unreliable,
      flushMessages now socket.maxReliableUnorderedRetries com.reliableReceivedPackets
        com.reliableOrderedReceivedPackets false com.reliableSendPackets com.reliableSendQueue =
        .ok unordered ∧
      flushMessages now socket.maxReliableOrderedRetries com.reliableReceivedPackets
        com.reliableOrderedReceivedPackets true com.reliableOrderedSendPackets
        com.reliableOrderedSendQueue = .ok ordered ∧
      flushUnreliable com.reliableReceivedPackets com.reliableOrderedReceivedPackets
        ⟨com.unreliableSendPacketId, com.unreliableSendPackets, com.unreliableSendQueue⟩ =
        .ok unreliable ∧
      com' = com.flushed unordered ordered unreliable ∧
      packets = unordered.built ++ ordered.built := by
  unfold flush
  simp only [Outcome.bind_eq_ok, Outcome.pure_def, Outcome.ok.injEq, Prod.mk.injEq]
  constructor
  · rintro ⟨u, hu, o, ho, r, hr, rfl, rfl⟩
    exact ⟨u, o, r, hu, ho, hr, rfl, rfl⟩
  · rintro ⟨u, o, r, hu, ho, hr, rfl, rfl⟩
    exact ⟨u, hu, o, ho, r, hr, rfl, rfl⟩

end Flushed

end InnerUdpCommunicator

end MiniUdp
