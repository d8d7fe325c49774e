import MiniUdp.System.Sending
import MiniUdp.Communicator.Partition
import Mathlib.Data.List.Chain

/-!
# The life of a reliable packet

A packet of a reliable channel is followed through calls of `send`, from the
one that builds it on (`Life`). What one call does to it depends on its timer
and its counter (`SendCall.spec`). The counter starts at the number of retries
but counts the initial send as one of them, so that the packet is given up
with one transmission missing, and a counter that starts at 0 underflows. The
packet lives as documented just when its timer runs out in the first call and
fewer times than there are retries (`lifeCycle_iff`).
-/

namespace MiniUdp

open InnerUdpCommunicator

variable {S R Buf D : Type}

namespace UdpCommunicatorSocket

def resendInterval (socket : UdpCommunicatorSocket Buf) (ordered : Bool) : Duration :=
  if ordered then socket.reliableOrderedResendInterval else socket.reliableUnorderedResendInterval

def maxRetries (socket : UdpCommunicatorSocket Buf) (ordered : Bool) : Nat :=
  if ordered then socket.maxReliableOrderedRetries else socket.maxReliableUnorderedRetries

end UdpCommunicatorSocket

/-! ## What a call does to one packet -/

/-- The pending packets are in the window of their channel. -/
def InnerUdpCommunicator.Labelled (com : InnerUdpCommunicator S R) : Prop :=
  ∀ ordered id p, (com.sendWindow ordered).get id = some p → p.packet.ordered = ordered

section Loop

variable {link : Link S Buf D} {env : SendEnv S} {socket : UdpCommunicatorSocket Buf}

/-- How many of the datagrams handed over in a channel carry the number `id`. -/
def handedCount (st : SendState Buf D) (ordered : Bool) (id : UInt16) : Nat :=
  (st.handed ordered).countP fun d => d.1 == id

/-- What a loop over a window leaves of a packet whose timer has run out or not: `none` when it
is given up. -/
def AfterCheck (env : SendEnv S) (socket : UdpCommunicatorSocket Buf) (p : PendingPacket S)
    (left : Option (PendingPacket S)) : Prop :=
  if resendDue env socket p then
    ∃ n, decrementRetries env.overflowChecks p.remainingRetries = .ok n ∧
      left = if n = 0 then none
        else some { p with lastSend := env.stamped p.packet, remainingRetries := n }
  else left = some p

theorem handedCount_hand (st : SendState Buf D) (ordered o : Bool) (id i : UInt16) (d : D) :
    handedCount (st.hand ordered id d) o i =
      handedCount st o i + if i = id ∧ o = ordered then 1 else 0 := by
  rw [handedCount, SendState.handed_hand, List.countP_append, ← handedCount]
  by_cases ho : o = ordered
  · by_cases hi : i = id
    · simp [ho, hi]
    · simp [ho, hi, Ne.symm hi]
  · simp [ho]

theorem resendIfNeeded_eq_ok {id : UInt16} {p p' : PendingPacket S} {st st' : SendState Buf D}
    {keep : Bool} (h : resendIfNeeded link env socket id p st = .ok (keep, p', st')) :
    AfterCheck env socket p (if keep then some p' else none) ∧
      ∀ o i, handedCount st' o i = handedCount st o i +
        if i = id ∧ o = p.packet.ordered ∧ resendDue env socket p = true ∧
          env.accepts p.packet = true then 1 else 0 := by
  unfold resendIfNeeded at h
  unfold AfterCheck
  by_cases hdue : resendDue env socket p = true
  · rw [if_pos hdue] at h ⊢
    generalize link.write p.packet st.buf = written at h
    obtain ⟨buf, d | e | - | -⟩ := written
    · simp only [Outcome.bind_eq_ok, Outcome.pure_def, Outcome.ok.injEq, Prod.mk.injEq] at h
      obtain ⟨n, hn, rfl, rfl, rfl⟩ := h
      refine ⟨⟨n, hn, ?_⟩, fun o i => ?_⟩
      · by_cases h0 : n = 0
        · simp [h0]
        · simp [h0]
      · by_cases hacc : env.accepts p.packet = true
        · rw [if_pos hacc, handedCount_hand]
          simp only [hdue, hacc, and_true]
          rfl
        · rw [if_neg hacc, if_neg fun hc => hacc hc.2.2.2]
          rfl
    all_goals cases h
  · rw [if_neg hdue] at h ⊢
    simp only [Outcome.pure_def, Outcome.ok.injEq, Prod.mk.injEq] at h
    obtain ⟨rfl, rfl, rfl⟩ := h
    exact ⟨rfl, fun o i => by simp [hdue]⟩

variable {window window' : RingBuffer (PendingPacket S) 32} {ordered : Bool}
  {st st' : SendState Buf D}

/-- The loop over a window, seen from one of its packets. -/
theorem retain_slot (hlabel : ∀ i p, window.get i = some p → p.packet.ordered = ordered)
    (h : window.retain (resendIfNeeded link env socket) st = .ok (window', st')) {id : UInt16}
    {p : PendingPacket S} (hp : window.get id = some p) (haccepts : env.accepts p.packet = true) :
    AfterCheck env socket p (window'.get id) ∧ handedCount st' ordered id =
      handedCount st ordered id + if resendDue env socket p then 1 else 0 := by
  obtain ⟨hcount, hret⟩ := RingBuffer.retain_invariant
    (P := fun done (s : SendState Buf D) => handedCount s ordered id =
      handedCount st ordered id + if resendDue env socket p then done.count id else 0)
    (Q := fun i v left => i = id → AfterCheck env socket v left)
    (by simp)
    (fun done i s hi hP => by
      have hne : i ≠ id := fun e => by rw [e, hp] at hi; cases hi
      rw [hP, List.count_append, List.count_singleton, beq_false_of_ne hne]
      simp)
    (fun done i v s keep v' s' hv hP hf => by
      obtain ⟨hafter, hcount⟩ := resendIfNeeded_eq_ok hf
      refine ⟨?_, fun _ => hafter⟩
      rw [hcount, hP, List.count_append, List.count_singleton]
      by_cases e : i = id
      · subst e
        obtain rfl : p = v := Option.some.inj (hp.symm.trans hv)
        by_cases hdue : resendDue env socket p = true
        · simp [hdue, haccepts, hlabel i p hp, Nat.add_assoc]
        · simp [hdue]
      · simp [e, Ne.symm e]) h
  have hmem : id ∈ window.window := RingBuffer.mem_window.mpr (RingBuffer.dist_of_get hp)
  refine ⟨hret.visited id hmem p hp rfl, ?_⟩
  rw [hcount, List.count_eq_one_of_mem window.nodup_window hmem]

theorem AfterCheck.packet_eq {p p' : PendingPacket S} (h : AfterCheck env socket p (some p')) :
    p'.packet = p.packet := by
  unfold AfterCheck at h
  split at h
  · obtain ⟨n, -, h⟩ := h
    split at h
    · cases h
    · rw [Option.some.inj h]
  · rw [Option.some.inj h]

/-- The loop over a window leaves packets of its channel. -/
theorem retain_label (hlabel : ∀ i p, window.get i = some p → p.packet.ordered = ordered)
    (h : window.retain (resendIfNeeded link env socket) st = .ok (window', st')) :
    ∀ i p, window'.get i = some p → p.packet.ordered = ordered := by
  obtain ⟨-, hret⟩ := RingBuffer.retain_invariant
    (P := fun _ (_ : SendState Buf D) => True) (Q := fun _ v left => AfterCheck env socket v left)
    trivial (fun _ _ _ _ _ => trivial)
    (fun done i v s keep v' s' _ _ hf => ⟨trivial, (resendIfNeeded_eq_ok hf).1⟩) h
  intro i p hp
  cases hv : window.get i with
  | none =>
    rw [hret.absent i hv] at hp
    cases hp
  | some v =>
    have hafter := hret.visited i (RingBuffer.mem_window.mpr (RingBuffer.dist_of_get hv)) v hv
    rw [hp] at hafter
    rw [hafter.packet_eq]
    exact hlabel i v hv

/-- The loop over the window of the other channel. -/
theorem retain_other (hlabel : ∀ i p, window.get i = some p → p.packet.ordered = ordered)
    (h : window.retain (resendIfNeeded link env socket) st = .ok (window', st')) {o : Bool}
    (ho : o ≠ ordered) (id : UInt16) : handedCount st' o id = handedCount st o id := by
  refine (RingBuffer.retain_invariant
    (P := fun _ (s : SendState Buf D) => handedCount s o id = handedCount st o id)
    (Q := fun _ _ _ => True) rfl (fun _ _ _ _ hP => hP)
    (fun done i v s keep v' s' hv hP hf => ⟨?_, trivial⟩) h).1
  have hne : ¬ o = v.packet.ordered := fun e => ho (e.trans (hlabel i v hv))
  rw [(resendIfNeeded_eq_ok hf).2, hP]
  simp [hne]

theorem sendUnreliable_count {packets : List (Packet S)} {place : Nat} {error : Option ByteReprError}
    (h : sendUnreliable link env packets place st = .ok (st', error)) (o : Bool) (id : UInt16) :
    handedCount st' o id = handedCount st o id := by
  induction packets generalizing place st with
  | nil =>
    simp only [sendUnreliable, Outcome.pure_def, Outcome.ok.injEq, Prod.mk.injEq] at h
    rw [h.1]
  | cons packet packets ih =>
    unfold sendUnreliable at h
    generalize link.write packet st.buf = written at h
    obtain ⟨buf, d | e | - | -⟩ := written
    · have hrest := ih h
      rw [hrest]
      split <;> rfl
    · simp only [Outcome.pure_def, Outcome.ok.injEq, Prod.mk.injEq] at h
      rw [← h.1]
      rfl
    all_goals cases h

end Loop

/-- `send_packets`, seen from one pending packet. -/
theorem sendPackets_slot {link : Link S Buf D} {env : SendEnv S}
    {socket : UdpCommunicatorSocket Buf} {com com' : InnerUdpCommunicator S R}
    {st : SendState Buf D} {error : Option ByteReprError} (hlabel : com.Labelled)
    (h : com.sendPackets link env socket = .ok (com', st, error)) {ordered : Bool} {id : UInt16}
    {p : PendingPacket S} (hp : (com.sendWindow ordered).get id = some p)
    (haccepts : env.accepts p.packet = true) :
    AfterCheck env socket p ((com'.sendWindow ordered).get id) ∧
      handedCount st ordered id = if resendDue env socket p then 1 else 0 := by
  obtain ⟨u, st1, o, st2, lastSend, hu, ho, hr, rfl⟩ := sendPackets_eq_ok h
  have hlabelU : ∀ i p, com.reliableSendPackets.get i = some p → p.packet.ordered = false :=
    hlabel false
  have hlabelO : ∀ i p, com.reliableOrderedSendPackets.get i = some p → p.packet.ordered = true :=
    hlabel true
  rw [sendUnreliable_count hr]
  cases ordered with
  | false =>
    obtain ⟨hafter, hcount⟩ := retain_slot hlabelU hu hp haccepts
    refine ⟨hafter, ?_⟩
    rw [retain_other hlabelO ho (by decide), hcount]
    exact Nat.zero_add _
  | true =>
    obtain ⟨hafter, hcount⟩ := retain_slot hlabelO ho hp haccepts
    refine ⟨hafter, ?_⟩
    rw [hcount, retain_other hlabelU hu (by decide)]
    exact Nat.zero_add _

/-! ## Calls of `send` -/

theorem beginSend_returns [ByteRepr S] {com : InnerUdpCommunicator S R} (now : Instant)
    (socket : UdpCommunicatorSocket Buf) (h : ∀ m ∈ com.unreliableSendQueue, fits m = true) :
    ∃ com' packets, com.beginSend now socket = .ok (com', packets) := by
  obtain ⟨u, hu, -⟩ := flushMessages_spec now socket.maxReliableUnorderedRetries
    com.primed.reliableReceivedPackets com.primed.reliableOrderedReceivedPackets false
    com.primed.reliableSendPackets com.primed.reliableSendQueue
  obtain ⟨o, ho, -⟩ := flushMessages_spec now socket.maxReliableOrderedRetries
    com.primed.reliableReceivedPackets com.primed.reliableOrderedReceivedPackets true
    com.primed.reliableOrderedSendPackets com.primed.reliableOrderedSendQueue
  have hqueue : com.primed.unreliableSendQueue = com.unreliableSendQueue := by
    obtain ⟨id, packets, hprimed, -⟩ := com.primed_eq
    rw [hprimed]
  obtain ⟨r, new, hr, -⟩ := flushUnreliable_spec com.primed.reliableReceivedPackets
    com.primed.reliableOrderedReceivedPackets ⟨com.primed.unreliableSendPacketId,
      com.primed.unreliableSendPackets, com.primed.unreliableSendQueue⟩ (by rwa [hqueue])
  rw [beginSend_eq]
  exact ⟨_, _, flush_eq_ok.mpr ⟨u, o, r, hu, ho, hr, rfl, rfl⟩⟩

/-- A call of `send`, from the state `com` on; the loops over the windows start in `begun`. -/
structure SendCall (S R Buf : Type) [ByteRepr S] where
  com : InnerUdpCommunicator S R
  socket : UdpCommunicatorSocket Buf
  env : SendEnv S
  begun : InnerUdpCommunicator S R
  built : List (Packet S)
  begins : com.beginSend env.now socket = .ok (begun, built)
  labelled : com.Labelled

namespace SendCall

variable [ByteRepr S] (link : Link S Buf D) (ordered : Bool) (id : UInt16) (c : SendCall S R Buf)

/-- The packet when the loops start. -/
def slot : Option (PendingPacket S) := (c.begun.sendWindow ordered).get id

def outcome : Res (InnerUdpCommunicator S R × SendState Buf D × Option ByteReprError) :=
  c.begun.sendPackets link c.env c.socket

/-- The call returns; an error of an unreliable packet is part of the result. -/
def Returns : Prop := ∃ result, c.outcome link = .ok result

/-- How often the call transmits the packet. -/
def sent : Nat :=
  match c.outcome link with
  | .ok (_, st, _) => handedCount st ordered id
  | _ => 0

/-- The packet after the call. -/
def left : Option (PendingPacket S) :=
  match c.outcome link with
  | .ok (com, _, _) => (com.sendWindow ordered).get id
  | _ => none

/-- The timer of the packet runs out when its counter is at zero. -/
def Underflows : Prop :=
  ∃ p, c.slot ordered id = some p ∧ resendDue c.env c.socket p = true ∧ p.remainingRetries = 0

/-- The readings for the packet: when its timer is looked at, and when it is started again. -/
def readings (packet : Packet S) : Instant × Instant :=
  (c.env.checked packet, c.env.stamped packet)

theorem send_eq : c.com.send link c.env c.socket = (c.outcome link >>= fun (com, st, error) =>
    pure (com, c.built, st, error)) := by
  rw [send, c.begins, Outcome.bind_ok]
  rfl

variable {link ordered id c}

/-- Up to the loops a call only builds packets. -/
theorem begun_flushed (c : SendCall S R Buf) (ordered : Bool) : ∃ st : FlushState S,
    FlushedInto c.env.now (c.socket.maxRetries ordered) c.com.reliableReceivedPackets
      c.com.reliableOrderedReceivedPackets ordered (c.com.sendWindow ordered)
      (c.com.sendQueue ordered) st ∧
    c.begun.sendWindow ordered = st.sendPackets ∧ ∀ packet ∈ st.built, packet ∈ c.built := by
  obtain ⟨i, packets, hprimed, -⟩ := c.com.primed_eq
  have hbegins := c.begins
  rw [beginSend_eq, hprimed] at hbegins
  obtain ⟨u, o, r, hu, ho, -, hbegun, hbuilt⟩ := flush_eq_ok.mp hbegins
  rw [hbegun, hbuilt]
  cases ordered with
  | false =>
    obtain ⟨st, hst, hflushed⟩ := flushMessages_spec c.env.now c.socket.maxReliableUnorderedRetries
      c.com.reliableReceivedPackets c.com.reliableOrderedReceivedPackets false
      c.com.reliableSendPackets c.com.reliableSendQueue
    obtain rfl : st = u := Outcome.ok.inj (hst.symm.trans hu)
    exact ⟨st, hflushed.toFlushedInto, rfl, fun _ hp => List.mem_append_left _ hp⟩
  | true =>
    obtain ⟨st, hst, hflushed⟩ := flushMessages_spec c.env.now c.socket.maxReliableOrderedRetries
      c.com.reliableReceivedPackets c.com.reliableOrderedReceivedPackets true
      c.com.reliableOrderedSendPackets c.com.reliableOrderedSendQueue
    obtain rfl : st = o := Outcome.ok.inj (hst.symm.trans ho)
    exact ⟨st, hflushed.toFlushedInto, rfl, fun _ hp => List.mem_append_right _ hp⟩

/-- A packet that is pending stays as it is until the loops start. -/
theorem slot_of_pending {p : PendingPacket S} (h : (c.com.sendWindow ordered).get id = some p) :
    c.slot ordered id = some p := by
  obtain ⟨st, hst, hwindow, -⟩ := c.begun_flushed ordered
  rw [slot, hwindow]
  exact (hst.pending id p).mpr (.inl h)

/-- A packet that was not pending before the call has just been built. -/
theorem slot_of_free (h : (c.com.sendWindow ordered).get id = none) {p : PendingPacket S}
    (hp : c.slot ordered id = some p) : p.packet ∈ c.built ∧ p.packet.ordered = ordered ∧
      p.lastSend = c.env.now - fromHours 1 ∧
      p.remainingRetries = c.socket.maxRetries ordered := by
  obtain ⟨st, hst, hwindow, hbuilt⟩ := c.begun_flushed ordered
  rw [slot, hwindow] at hp
  rcases (hst.pending id p).mp hp with hold | ⟨j, packet, hj, -, rfl⟩
  · rw [h] at hold
    cases hold
  · exact ⟨hbuilt packet (List.mem_of_getElem? hj), (hst.header j packet hj).2.2, rfl, rfl⟩

theorem labelled_begun (c : SendCall S R Buf) : c.begun.Labelled := by
  intro ordered id p hp
  cases hold : (c.com.sendWindow ordered).get id with
  | none => exact (slot_of_free hold hp).2.1
  | some q =>
    obtain rfl : q = p := Option.some.inj ((slot_of_pending hold).symm.trans hp)
    exact c.labelled ordered id q hold

/-- Another call can follow a call that returns. -/
theorem labelled_left {com' : InnerUdpCommunicator S R} {st : SendState Buf D}
    {error : Option ByteReprError} (h : c.outcome link = .ok (com', st, error)) :
    com'.Labelled := by
  obtain ⟨u, st1, o, st2, lastSend, hu, ho, -, rfl⟩ := sendPackets_eq_ok h
  intro ordered
  cases ordered with
  | false => exact retain_label (c.labelled_begun false) hu
  | true => exact retain_label (c.labelled_begun true) ho

/-- What a call that returns does to the packet. -/
theorem spec {p : PendingPacket S} (hp : c.slot ordered id = some p) (hreturns : c.Returns link)
    (haccepts : c.env.accepts p.packet = true) :
    AfterCheck c.env c.socket p (c.left link ordered id) ∧
      c.sent link ordered id = if resendDue c.env c.socket p then 1 else 0 := by
  obtain ⟨⟨com', st, error⟩, hout⟩ := hreturns
  unfold left sent
  rw [hout]
  exact sendPackets_slot c.labelled_begun hout hp haccepts

theorem returns_of_sent {n : Nat} (h : c.sent link ordered id = n + 1) : c.Returns link := by
  unfold sent at h
  split at h
  · rename_i hout
    exact ⟨_, hout⟩
  · cases h

end SendCall

/-! ## The life of a packet -/

section Life

variable [ByteRepr S] (link : Link S Buf D) (ordered : Bool) (id : UInt16)

/-- The call `d` comes after `c`; in between the packet has not been touched, and the
configuration has not changed. -/
structure Next (c d : SendCall S R Buf) : Prop where
  pending : c.left link ordered id ≠ none
  same : (d.com.sendWindow ordered).get id = c.left link ordered id
  interval : d.socket.resendInterval ordered = c.socket.resendInterval ordered

/-- `p` is a packet built in the call `first` under the number `id`, and `later` are calls after
it, for as long as it is pending. The socket takes it every time, and no call fails to return for
another reason than its counter. -/
structure Life (p : PendingPacket S) (first : SendCall S R Buf) (later : List (SendCall S R Buf)) :
    Prop where
  free : (first.com.sendWindow ordered).get id = none
  slot : first.slot ordered id = some p
  chain : (first :: later).IsChain (Next link ordered id)
  accepts : ∀ c ∈ first :: later, c.env.accepts p.packet = true
  returns : ∀ c ∈ first :: later, c.Returns link ∨ c.Underflows ordered id

/-- How often the calls transmit the packet. -/
def transmissions (calls : List (SendCall S R Buf)) : Nat :=
  (calls.map fun c => c.sent link ordered id).sum

/-- The life the documentation promises: the packet is transmitted in the call that builds it, then
again when the interval has passed, and it is pending until it has been transmitted once and sent
again `retries` times; its counter does not underflow. -/
structure LifeCycle (p : PendingPacket S) (retries : Nat) (interval : Duration)
    (first : SendCall S R Buf) (later : List (SendCall S R Buf)) : Prop where
  initial : first.sent link ordered id = 1
  once : ∀ c ∈ first :: later, c.sent link ordered id ≤ 1
  spaced : (((first :: later).filter fun c => c.sent link ordered id != 0).map
    (SendCall.readings · p.packet)).IsChain fun a b => interval < elapsed a.2 b.1
  counted : ∀ before c after, first :: later = before ++ c :: after → c.Returns link →
    transmissions link ordered id (before ++ [c]) ≤ retries + 1 ∧
    (c.left link ordered id ≠ none ↔ transmissions link ordered id (before ++ [c]) < retries + 1)
  noUnderflow : ∀ c ∈ first :: later, ¬ c.Underflows ordered id

/-- How often a timer last started at `last` runs out at the readings. -/
def expirations (interval : Duration) : Instant → List (Instant × Instant) → Nat
  | _, [] => 0
  | last, (checked, stamped) :: readings =>
    if interval < elapsed last checked then expirations interval stamped readings + 1
    else expirations interval last readings

variable {link ordered id}

/-! ### From some call on -/

/-- The calls `calls` go on with the packet in the state `q`. -/
structure Goes (link : Link S Buf D) (ordered : Bool) (id : UInt16) (packet : Packet S)
    (interval : Duration) (q : PendingPacket S) (calls : List (SendCall S R Buf)) : Prop where
  packet_eq : q.packet = packet
  label : packet.ordered = ordered
  slot : ∀ c ∈ calls.head?, c.slot ordered id = some q
  interval_eq : ∀ c ∈ calls, c.socket.resendInterval ordered = interval
  chain : calls.IsChain (Next link ordered id)
  accepts : ∀ c ∈ calls, c.env.accepts packet = true
  returns : ∀ c ∈ calls, c.Returns link ∨ c.Underflows ordered id

namespace Goes

variable {packet : Packet S} {interval : Duration} {q q' : PendingPacket S}
  {c : SendCall S R Buf} {calls : List (SendCall S R Buf)}

theorem slot_head (h : Goes link ordered id packet interval q (c :: calls)) :
    c.slot ordered id = some q := h.slot c rfl

theorem due_eq (h : Goes link ordered id packet interval q (c :: calls)) :
    resendDue c.env c.socket q = decide (interval < elapsed q.lastSend (c.env.checked packet)) := by
  have hi := h.interval_eq c List.mem_cons_self
  unfold UdpCommunicatorSocket.resendInterval at hi
  unfold resendDue
  rw [h.packet_eq, h.label, hi]

theorem underflows_iff (h : Goes link ordered id packet interval q (c :: calls)) :
    c.Underflows ordered id ↔ resendDue c.env c.socket q = true ∧ q.remainingRetries = 0 := by
  constructor
  · rintro ⟨q', hq', hdue, h0⟩
    obtain rfl : q = q' := Option.some.inj (h.slot_head.symm.trans hq')
    exact ⟨hdue, h0⟩
  · exact fun hu => ⟨q, h.slot_head, hu⟩

theorem next (h : Goes link ordered id packet interval q (c :: calls))
    (hleft : c.left link ordered id = some q') (hq' : q'.packet = packet) :
    Goes link ordered id packet interval q' calls where
  packet_eq := hq'
  label := h.label
  slot d hd := by
    have hnext := (List.isChain_cons.mp h.chain).1 d hd
    exact SendCall.slot_of_pending (hnext.same.trans hleft)
  interval_eq d hd := h.interval_eq d (List.mem_cons_of_mem c hd)
  chain := (List.isChain_cons.mp h.chain).2
  accepts d hd := h.accepts d (List.mem_cons_of_mem c hd)
  returns d hd := h.returns d (List.mem_cons_of_mem c hd)

/-- A call that finds the timer running leaves the packet alone. -/
theorem not_due (h : Goes link ordered id packet interval q (c :: calls))
    (hdue : resendDue c.env c.socket q = false) :
    c.sent link ordered id = 0 ∧ Goes link ordered id packet interval q calls ∧
      c.left link ordered id = some q := by
  have hreturns : c.Returns link := (h.returns c List.mem_cons_self).resolve_right fun hu => by
    rw [h.underflows_iff, hdue] at hu
    cases hu.1
  obtain ⟨hafter, hsent⟩ := SendCall.spec h.slot_head hreturns
    (h.packet_eq ▸ h.accepts c List.mem_cons_self)
  rw [AfterCheck, hdue] at hafter
  rw [hdue] at hsent
  exact ⟨hsent, h.next hafter h.packet_eq, hafter⟩

/-- A call that finds the timer run out, and the counter above zero, transmits the packet. -/
theorem due (h : Goes link ordered id packet interval q (c :: calls))
    (hdue : resendDue c.env c.socket q = true) {n : Nat} (hn : q.remainingRetries = n + 1) :
    c.Returns link ∧ c.sent link ordered id = 1 ∧
      (n = 0 → c.left link ordered id = none) ∧
      (n ≠ 0 → ∃ q', c.left link ordered id = some q' ∧ q'.remainingRetries = n ∧
        q'.lastSend = c.env.stamped packet ∧ Goes link ordered id packet interval q' calls) := by
  have hreturns : c.Returns link := (h.returns c List.mem_cons_self).resolve_right fun hu => by
    rw [h.underflows_iff, hn] at hu
    cases hu.2
  obtain ⟨hafter, hsent⟩ := SendCall.spec h.slot_head hreturns
    (h.packet_eq ▸ h.accepts c List.mem_cons_self)
  rw [hdue] at hsent
  rw [AfterCheck, if_pos hdue, decrementRetries, hn, if_neg (Nat.succ_ne_zero n)] at hafter
  obtain ⟨m, hm, hleft⟩ := hafter
  obtain rfl : n = m := Outcome.ok.inj hm
  refine ⟨hreturns, hsent, fun h0 => by rw [hleft, if_pos h0], fun h0 => ?_⟩
  rw [if_neg h0] at hleft
  exact ⟨_, hleft, rfl, by rw [h.packet_eq], h.next hleft h.packet_eq⟩

/-! ### Enough retries -/

/-- The timer runs out less often than the counter allows: no call gives the packet up. -/
theorem kept (h : Goes link ordered id packet interval q calls)
    (hlt : expirations interval q.lastSend (calls.map (SendCall.readings · packet)) <
      q.remainingRetries) (before : List (SendCall S R Buf)) (c : SendCall S R Buf)
    (after : List (SendCall S R Buf)) (hcalls : calls = before ++ c :: after) :
    ¬ c.Underflows ordered id ∧ c.sent link ordered id ≤ 1 ∧
      transmissions link ordered id (before ++ [c]) ≤
        expirations interval q.lastSend (calls.map (SendCall.readings · packet)) ∧
      c.left link ordered id ≠ none := by
  induction calls generalizing q before with
  | nil => simp at hcalls
  | cons d calls ih =>
    obtain ⟨n, hn⟩ : ∃ n, q.remainingRetries = n + 1 := Nat.exists_eq_succ_of_ne_zero (by omega)
    rw [List.map_cons, SendCall.readings, expirations] at hlt ⊢
    have hunder : ¬ d.Underflows ordered id := fun hu => by
      rw [h.underflows_iff, hn] at hu
      cases hu.2
    by_cases hdue : interval < elapsed q.lastSend (d.env.checked packet)
    · rw [if_pos hdue] at hlt ⊢
      obtain ⟨-, hsent, -, hkeep⟩ := h.due (by rw [h.due_eq, decide_eq_true hdue]) hn
      obtain ⟨q', hleft, hrem, hlast, hgoes⟩ := hkeep (by omega)
      cases before with
      | nil =>
        obtain ⟨rfl, rfl⟩ := List.cons.inj hcalls
        refine ⟨hunder, hsent.le, ?_, by rw [hleft]; simp⟩
        simp only [transmissions, List.nil_append, List.map_singleton, List.sum_singleton, hsent]
        omega
      | cons b before =>
        obtain ⟨rfl, hrest⟩ := List.cons.inj hcalls
        obtain ⟨hu, hone, hsum, hne⟩ := ih hgoes (by rw [hlast, hrem]; omega) before hrest
        refine ⟨hu, hone, ?_, hne⟩
        rw [hlast] at hsum
        simp only [transmissions, List.cons_append, List.map_cons, List.sum_cons, hsent] at hsum ⊢
        omega
    · rw [if_neg hdue] at hlt ⊢
      obtain ⟨hsent, hgoes, hleft⟩ := h.not_due (by rw [h.due_eq, decide_eq_false hdue])
      cases before with
      | nil =>
        obtain ⟨rfl, rfl⟩ := List.cons.inj hcalls
        refine ⟨hunder, hsent ▸ Nat.zero_le 1, ?_, by rw [hleft]; simp⟩
        simp only [transmissions, List.nil_append, List.map_singleton, List.sum_singleton, hsent]
        exact Nat.zero_le _
      | cons b before =>
        obtain ⟨rfl, hrest⟩ := List.cons.inj hcalls
        obtain ⟨hu, hone, hsum, hne⟩ := ih hgoes hlt before hrest
        refine ⟨hu, hone, ?_, hne⟩
        simp only [transmissions, List.cons_append, List.map_cons, List.sum_cons, hsent] at hsum ⊢
        omega

/-- Between two transmissions the interval has passed. -/
theorem spaced (h : Goes link ordered id packet interval q calls)
    (hlt : expirations interval q.lastSend (calls.map (SendCall.readings · packet)) <
      q.remainingRetries) (t : Instant) :
    ((t, q.lastSend) :: ((calls.filter fun c => c.sent link ordered id != 0).map
      (SendCall.readings · packet))).IsChain fun a b => interval < elapsed a.2 b.1 := by
  induction calls generalizing q t with
  | nil => exact List.isChain_singleton _
  | cons d calls ih =>
    obtain ⟨n, hn⟩ : ∃ n, q.remainingRetries = n + 1 := Nat.exists_eq_succ_of_ne_zero (by omega)
    rw [List.map_cons, SendCall.readings, expirations] at hlt
    by_cases hdue : interval < elapsed q.lastSend (d.env.checked packet)
    · rw [if_pos hdue] at hlt
      obtain ⟨-, hsent, -, hkeep⟩ := h.due (by rw [h.due_eq, decide_eq_true hdue]) hn
      obtain ⟨q', -, hrem, hlast, hgoes⟩ := hkeep (by omega)
      have hrest := ih hgoes (by rw [hlast, hrem]; omega) (d.env.checked packet)
      rw [hlast] at hrest
      rw [List.filter_cons_of_pos (by rw [hsent]; rfl), List.map_cons]
      exact List.isChain_cons_cons.mpr ⟨hdue, hrest⟩
    · rw [if_neg hdue] at hlt
      obtain ⟨hsent, hgoes, -⟩ := h.not_due (by rw [h.due_eq, decide_eq_false hdue])
      rw [List.filter_cons_of_neg (by rw [hsent]; decide)]
      exact ih hgoes hlt t

/-! ### No more expirations than retries -/

/-- `n` transmissions have been made. If the packet then lives on as promised, the timer runs out
less often than the counter allows. -/
theorem expirations_lt (h : Goes link ordered id packet interval q calls) {retries n : Nat}
    (hn : n < retries) (hrem : q.remainingRetries = retries - n)
    (hunder : ∀ c ∈ calls, ¬ c.Underflows ordered id)
    (hcounted : ∀ before c after, calls = before ++ c :: after → c.Returns link →
      (c.left link ordered id ≠ none ↔
        n + transmissions link ordered id (before ++ [c]) < retries + 1)) :
    expirations interval q.lastSend (calls.map (SendCall.readings · packet)) <
      q.remainingRetries := by
  induction calls generalizing q n with
  | nil =>
    rw [List.map_nil, expirations]
    omega
  | cons d calls ih =>
    rw [List.map_cons, SendCall.readings, expirations]
    have htail : ∀ m, d.sent link ordered id = m → ∀ before c after,
        calls = before ++ c :: after → c.Returns link → (c.left link ordered id ≠ none ↔
          n + m + transmissions link ordered id (before ++ [c]) < retries + 1) := by
      intro m hm before c after hrest hret
      rw [hcounted (d :: before) c after (by rw [hrest]; rfl) hret]
      simp only [transmissions, List.cons_append, List.map_cons, List.sum_cons, hm, Nat.add_assoc]
    have hunder' : ∀ c ∈ calls, ¬ c.Underflows ordered id := fun c hc =>
      hunder c (List.mem_cons_of_mem d hc)
    by_cases hdue : interval < elapsed q.lastSend (d.env.checked packet)
    · rw [if_pos hdue]
      obtain ⟨k, hk⟩ : ∃ k, q.remainingRetries = k + 1 :=
        Nat.exists_eq_succ_of_ne_zero (by omega)
      obtain ⟨hret, hsent, hgone, hkeep⟩ := h.due (by rw [h.due_eq, decide_eq_true hdue]) hk
      -- the packet is still promised to be pending, so the counter was not at its end
      have hleft := (hcounted [] d calls rfl hret).mpr (by
        simp only [transmissions, List.nil_append, List.map_singleton, List.sum_singleton, hsent]
        omega)
      have hk0 : k ≠ 0 := fun h0 => hleft (hgone h0)
      obtain ⟨q', -, hrem', hlast, hgoes⟩ := hkeep hk0
      clear hkeep hgone
      have hn' : n + 1 < retries := by omega
      have hrem'' : q'.remainingRetries = retries - (n + 1) := by omega
      have hrest := ih hgoes hn' hrem'' hunder' (htail 1 hsent)
      rw [hlast, hrem'] at hrest
      omega
    · rw [if_neg hdue]
      obtain ⟨hsent, hgoes, -⟩ := h.not_due (by rw [h.due_eq, decide_eq_false hdue])
      exact ih hgoes hn hrem hunder' (htail 0 hsent)

end Goes

/-! ### When a packet lives as documented -/

theorem interval_of_chain {first : SendCall S R Buf} {later : List (SendCall S R Buf)}
    (h : (first :: later).IsChain (Next link ordered id)) : ∀ c ∈ first :: later,
      c.socket.resendInterval ordered = first.socket.resendInterval ordered := by
  induction later generalizing first with
  | nil =>
    intro c hc
    rw [List.mem_singleton.mp hc]
  | cons d later ih =>
    obtain ⟨hnext, hrest⟩ := List.isChain_cons_cons.mp h
    intro c hc
    rcases List.mem_cons.mp hc with rfl | hc
    · rfl
    · exact (ih hrest c hc).trans hnext.interval

theorem Life.goes {p : PendingPacket S} {first : SendCall S R Buf}
    {later : List (SendCall S R Buf)} (h : Life link ordered id p first later) :
    Goes link ordered id p.packet (first.socket.resendInterval ordered) p (first :: later) where
  packet_eq := rfl
  label := (SendCall.slot_of_free h.free h.slot).2.1
  slot c hc := by
    obtain rfl : first = c := Option.some.inj hc
    exact h.slot
  interval_eq := interval_of_chain h.chain
  chain := h.chain
  accepts := h.accepts
  returns := h.returns

/-- A packet lives as documented just when its timer runs out in the call that builds it, and in
all calls together fewer times than there are retries. -/
theorem lifeCycle_iff {p : PendingPacket S} {first : SendCall S R Buf}
    {later : List (SendCall S R Buf)} (h : Life link ordered id p first later) :
    LifeCycle link ordered id p (first.socket.maxRetries ordered)
      (first.socket.resendInterval ordered) first later ↔
    first.socket.resendInterval ordered <
      elapsed (first.env.now - fromHours 1) (first.env.checked p.packet) ∧
    expirations (first.socket.resendInterval ordered) (first.env.now - fromHours 1)
      ((first :: later).map (SendCall.readings · p.packet)) < first.socket.maxRetries ordered := by
  have hgoes := h.goes
  obtain ⟨-, -, hlast, hrem⟩ := SendCall.slot_of_free h.free h.slot
  rw [← hlast, ← hrem]
  constructor
  · intro hlife
    have hdue : first.socket.resendInterval ordered <
        elapsed p.lastSend (first.env.checked p.packet) := by
      by_contra hno
      have hsent := (hgoes.not_due (by rw [hgoes.due_eq, decide_eq_false hno])).1
      rw [hlife.initial] at hsent
      cases hsent
    refine ⟨hdue, hgoes.expirations_lt (n := 0) ?_ rfl hlife.noUnderflow ?_⟩
    · refine Nat.pos_of_ne_zero fun h0 => hlife.noUnderflow first List.mem_cons_self ?_
      exact hgoes.underflows_iff.mpr ⟨by rw [hgoes.due_eq, decide_eq_true hdue], h0⟩
    · intro before c after hcalls hret
      rw [Nat.zero_add]
      exact (hlife.counted before c after hcalls hret).2
  · rintro ⟨hdue, hlt⟩
    have hkept := hgoes.kept hlt
    refine ⟨?_, fun c hc => ?_, ?_, fun before c after hcalls _ => ?_, fun c hc => ?_⟩
    · obtain ⟨n, hn⟩ : ∃ n, p.remainingRetries = n + 1 :=
        Nat.exists_eq_succ_of_ne_zero (by omega)
      exact (hgoes.due (by rw [hgoes.due_eq, decide_eq_true hdue]) hn).2.1
    · obtain ⟨before, after, hcalls⟩ := List.append_of_mem hc
      exact (hkept before c after hcalls).2.1
    · exact (hgoes.spaced hlt 0).tail
    · obtain ⟨-, -, hsum, hne⟩ := hkept before c after hcalls
      exact ⟨by omega, iff_of_true hne (by omega)⟩
    · obtain ⟨before, after, hcalls⟩ := List.append_of_mem hc
      exact (hkept before c after hcalls).1

end Life

/-! ## One retry, or none -/

/-- An end with one message to send. -/
def loneCom : InnerUdpCommunicator Bool Bool :=
  { reliableSendQueue := [true], lastSeen := 0, lastSend := 0 }

def loneSocket (retries : Nat) : UdpCommunicatorSocket Unit :=
  { dataBuffer := (), maxReliableUnorderedRetries := retries }

def loneBegun (retries : Nat) : InnerUdpCommunicator Bool Bool × List (Packet Bool) :=
  match loneCom.beginSend 0 (loneSocket retries) with
  | .ok begun => begun
  | _ => (loneCom, [])

theorem loneBegun_eq (retries : Nat) :
    loneCom.beginSend 0 (loneSocket retries) = .ok (loneBegun retries) := by
  obtain ⟨com, packets, h⟩ : ∃ com packets, loneCom.beginSend 0 (loneSocket retries) =
      .ok (com, packets) := beginSend_returns 0 _ fun m hm => (List.not_mem_nil hm).elim
  rw [loneBegun, h]

/-- Its first call of `send`, at time 0. -/
def loneCall (retries : Nat) : SendCall Bool Bool Unit where
  com := loneCom
  socket := loneSocket retries
  env := { now := 0, checked := fun _ => 0, stamped := fun _ => 0, accepts := fun _ => true,
           overflowChecks := true }
  begun := (loneBegun retries).1
  built := (loneBegun retries).2
  begins := loneBegun_eq retries
  labelled ordered id p hp := by
    cases ordered <;> exact absurd (hp.symm.trans (RingBuffer.get_new id)) (by simp)

theorem loneCall_life {retries : Nat} {p : PendingPacket Bool}
    (hp : (loneCall retries).slot false 0 = some p)
    (h : (loneCall retries).Returns (directLink Bool) ∨ (loneCall retries).Underflows false 0) :
    Life (directLink Bool) false 0 p (loneCall retries) [] where
  free := RingBuffer.get_new 0
  slot := hp
  chain := List.isChain_singleton _
  accepts c hc := by
    rw [List.mem_singleton.mp hc]
    rfl
  returns c hc := by
    rw [List.mem_singleton.mp hc]
    exact h

/-- The one retry of a packet is its initial send, and without one the counter underflows in the
initial send. -/
theorem one_retry_not_lifeCycle :
    (∃ p, Life (directLink Bool) false 0 p (loneCall 1) [] ∧
      (loneCall 1).sent (directLink Bool) false 0 = 1 ∧
      (loneCall 1).left (directLink Bool) false 0 = none ∧
      ¬ LifeCycle (directLink Bool) false 0 p 1 (fromMillis 100) (loneCall 1) []) ∧
    ∃ p, Life (directLink Bool) false 0 p (loneCall 0) [] ∧
      ((loneCall 0).outcome (directLink Bool)).returns = false ∧
      ¬ LifeCycle (directLink Bool) false 0 p 0 (fromMillis 100) (loneCall 0) [] := by
  constructor
  · obtain ⟨p, hp⟩ : ∃ p, (loneCall 1).slot false 0 = some p :=
      Option.isSome_iff_exists.mp (by decide +kernel)
    have hsent : (loneCall 1).sent (directLink Bool) false 0 = 1 := by decide +kernel
    have hreturns : (loneCall 1).Returns (directLink Bool) := SendCall.returns_of_sent hsent
    have hleft : (loneCall 1).left (directLink Bool) false 0 = none :=
      Option.isNone_iff_eq_none.mp (by decide +kernel)
    refine ⟨p, loneCall_life hp (.inl hreturns), hsent, hleft, fun hlife => ?_⟩
    refine (hlife.counted [] (loneCall 1) [] rfl hreturns).2.mpr ?_ hleft
    rw [transmissions, List.nil_append, List.map_singleton, List.sum_singleton, hsent]
    decide
  · obtain ⟨p, hp, hcheck⟩ : ∃ p, (loneCall 0).slot false 0 = some p ∧
        (resendDue (loneCall 0).env (loneCall 0).socket p && p.remainingRetries == 0) = true :=
      (Option.any_eq_true _ _).mp (by decide +kernel)
    have hunder : (loneCall 0).Underflows false 0 := by
      rw [Bool.and_eq_true, beq_iff_eq] at hcheck
      exact ⟨p, hp, hcheck⟩
    refine ⟨p, loneCall_life hp (.inr hunder), ?_, fun hlife => ?_⟩
    · decide +kernel
    · exact hlife.noUnderflow (loneCall 0) List.mem_cons_self hunder

/-- The state after the first call, with three retries. -/
def loneLeft : InnerUdpCommunicator Bool Bool :=
  match (loneCall 3).outcome (directLink Bool) with
  | .ok (com, _, _) => com
  | _ => loneCom

theorem loneLeft_eq : ∃ st error,
    (loneCall 3).outcome (directLink Bool) = .ok (loneLeft, st, error) := by
  have hsent : (loneCall 3).sent (directLink Bool) false 0 = 1 := by decide +kernel
  obtain ⟨⟨com, st, error⟩, h⟩ := SendCall.returns_of_sent hsent
  have e : loneLeft = com := by rw [loneLeft, h]
  exact ⟨st, error, e ▸ h⟩

def loneBegunAgain : InnerUdpCommunicator Bool Bool × List (Packet Bool) :=
  match loneLeft.beginSend (fromMillis 200) (loneSocket 3) with
  | .ok begun => begun
  | _ => (loneLeft, [])

theorem loneBegunAgain_eq :
    loneLeft.beginSend (fromMillis 200) (loneSocket 3) = .ok loneBegunAgain := by
  have hempty : loneLeft.unreliableSendQueue = [] := by decide +kernel
  obtain ⟨com, packets, h⟩ : ∃ com packets, loneLeft.beginSend (fromMillis 200) (loneSocket 3) =
      .ok (com, packets) :=
    beginSend_returns _ _ fun m hm => (List.not_mem_nil (hempty ▸ hm)).elim
  rw [loneBegunAgain, h]

/-- The next call, 200 milliseconds later. -/
def loneAgain : SendCall Bool Bool Unit where
  com := loneLeft
  socket := loneSocket 3
  env := { now := fromMillis 200, checked := fun _ => fromMillis 200,
           stamped := fun _ => fromMillis 200, accepts := fun _ => true, overflowChecks := true }
  begun := loneBegunAgain.1
  built := loneBegunAgain.2
  begins := loneBegunAgain_eq
  labelled := by
    obtain ⟨st, error, h⟩ := loneLeft_eq
    exact SendCall.labelled_left h

theorem next_loneAgain : Next (directLink Bool) false 0 (loneCall 3) loneAgain where
  pending := Option.isSome_iff_ne_none.mp (by decide +kernel)
  same := by
    obtain ⟨st, error, h⟩ := loneLeft_eq
    rw [SendCall.left, h]
    rfl
  interval := rfl

/-- With three retries the packet is sent again after 200 milliseconds and lives as documented. -/
theorem lifeCycle_iff_three : ∃ p, LifeCycle (directLink Bool) false 0 p 3 (fromMillis 100)
    (loneCall 3) [loneAgain] ∧
      transmissions (directLink Bool) false 0 [loneCall 3, loneAgain] = 2 := by
  obtain ⟨p, hp⟩ : ∃ p, (loneCall 3).slot false 0 = some p :=
    Option.isSome_iff_exists.mp (by decide +kernel)
  have hfirst : (loneCall 3).sent (directLink Bool) false 0 = 1 := by decide +kernel
  have hagain : loneAgain.sent (directLink Bool) false 0 = 1 := by decide +kernel
  have hlife : Life (directLink Bool) false 0 p (loneCall 3) [loneAgain] :=
    { free := RingBuffer.get_new 0
      slot := hp
      chain := List.isChain_pair.mpr next_loneAgain
      accepts := by simp [loneCall, loneAgain]
      returns := by
        simp [SendCall.returns_of_sent hfirst, SendCall.returns_of_sent hagain] }
  refine ⟨p, (lifeCycle_iff hlife).mpr (show fromMillis 100 < elapsed (0 - fromHours 1) 0 ∧
    expirations (fromMillis 100) (0 - fromHours 1)
      [(0, 0), (fromMillis 200, fromMillis 200)] < 3 by decide), ?_⟩
  rw [transmissions, List.map_cons, List.map_singleton, hfirst, hagain]
  rfl

end MiniUdp
