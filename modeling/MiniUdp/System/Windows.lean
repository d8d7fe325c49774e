import MiniUdp.System.Network
import MiniUdp.Lib.SlidingWindow

/-!
# Windows and logs

A send window holds some of the last 32 packets of its log (`SendInv`), a
receive window shows which of the last 32 packets up to the newest one were
accepted (`RecvInv`), and an acknowledgement names only accepted packets
(`AckOk`). Each operation of a ring buffer is a step of the abstract sliding
window `viewOf`.
-/

namespace MiniUdp

open Serial

/-! ## The newest of a list -/

theorem lt_top {l : List Nat} {k : Nat} (h : k ∈ l) : k < top l := by
  induction l with
  | nil => cases h
  | cons a l ih =>
    rw [top]
    rcases List.mem_cons.mp h with rfl | h
    · omega
    · have := ih h; omega

theorem top_le {l : List Nat} {n : Nat} (h : ∀ k ∈ l, k < n) : top l ≤ n := by
  induction l with
  | nil => exact Nat.zero_le n
  | cons a l ih =>
    rw [top]
    have := h a (by simp)
    have := ih fun k hk => h k (by simp [hk])
    omega

theorem top_append (l : List Nat) (k : Nat) : top (l ++ [k]) = max (top l) (k + 1) := by
  induction l with
  | nil => simp [top]
  | cons a l ih => rw [List.cons_append, top, ih, top]; omega

theorem top_mono {l l' : List Nat} (h : ∀ k ∈ l, k ∈ l') : top l ≤ top l' :=
  top_le fun _ hk => lt_top (h _ hk)

/-! ## What a window shows -/

section View

/-- What a window shows of the abstract sliding window. -/
def viewOf {T : Type} (window : RingBuffer T 32) (n : Nat) (accepted : List Nat) : SlidingWindow where
  next := n
  pending := {k | k ∈ pendingIn window n}
  accepted := {k | k ∈ accepted}

theorem mem_pendingIn {T : Type} {window : RingBuffer T 32} {n k : Nat} :
    k ∈ pendingIn window n ↔ k < n ∧ n ≤ k + 32 ∧ (window.get (seq k)).isSome := by
  simp [pendingIn]

theorem mem_gone {T : Type} {before after : RingBuffer T 32} {n k : Nat} :
    k ∈ gone before after n ↔ k ∈ pendingIn before n ∧ after.get (seq k) = none := by
  simp [gone]

variable {S : Type} {window window' : RingBuffer (PendingPacket S) 32}

/-- The window keeps its place and some of its packets. -/
structure Shrinks (window window' : RingBuffer (PendingPacket S) 32) : Prop where
  newest : window'.newest = window.newest
  pending : ∀ id p', window'.get id = some p' → ∃ p, window.get id = some p ∧ p'.packet = p.packet

theorem Shrinks.refl (window : RingBuffer (PendingPacket S) 32) : Shrinks window window :=
  ⟨rfl, fun _ p hp => ⟨p, hp, rfl⟩⟩

theorem Shrinks.mem_pendingIn (hs : Shrinks window window') {n k : Nat}
    (hk : k ∈ pendingIn window' n) : k ∈ pendingIn window n := by
  rw [MiniUdp.mem_pendingIn] at *
  refine ⟨hk.1, hk.2.1, ?_⟩
  obtain ⟨p', hp'⟩ := Option.isSome_iff_exists.mp hk.2.2
  obtain ⟨p, hp, -⟩ := hs.pending _ _ hp'
  rw [hp]; rfl

/-- Shrinking settles if only accepted packets are lost. -/
theorem Shrinks.settle (hs : Shrinks window window') {n : Nat} {accepted : List Nat}
    (hgone : ∀ k ∈ gone window window' n, k ∈ accepted) :
    SlidingWindow.Settle (viewOf window n accepted) (viewOf window' n accepted) where
  next := rfl
  pending _ hk := hs.mem_pendingIn hk
  settled k hk hk' := by
    refine hgone k (mem_gone.mpr ⟨hk, ?_⟩)
    have hp := MiniUdp.mem_pendingIn.mp hk
    by_contra hc
    exact hk' (MiniUdp.mem_pendingIn.mpr ⟨hp.1, hp.2.1, Option.isSome_iff_ne_none.mpr hc⟩)
  accepted := rfl

theorem shrinks_takeAcked (newest : UInt16) (bits : UInt32)
    (window : RingBuffer (PendingPacket S) 32) : Shrinks window (takeAcked newest bits window) where
  newest := newest_takeAcked newest bits window
  pending id p' hp' := by
    rw [get_takeAcked] at hp'
    split at hp'
    · cases hp'
    · exact ⟨p', hp', rfl⟩

theorem RingBuffer.get_mapItems {T : Type} (r : RingBuffer T 32) (f : T → T) (id : UInt16) :
    (r.mapItems f).get id = (r.get id).map f := by
  unfold get mapItems
  split
  · simp
  · rfl

theorem shrinks_mapItems (window : RingBuffer (PendingPacket S) 32) (retries : Nat) :
    Shrinks window (window.mapItems fun p => { p with remainingRetries := retries }) where
  newest := rfl
  pending id p' hp' := by
    rw [RingBuffer.get_mapItems, Option.map_eq_some_iff] at hp'
    obtain ⟨p, hp, rfl⟩ := hp'
    exact ⟨p, hp, rfl⟩

theorem sendWindow_topUp {R Buf : Type} (x : Endpoint S R Buf) (retries : Nat) (ordered : Bool) :
    (x.topUp retries).com.sendWindow ordered =
      (x.com.sendWindow ordered).mapItems fun p => { p with remainingRetries := retries } := by
  cases ordered <;> rfl

end View

/-! ## Send windows -/

section Send

variable {S : Type} [ByteRepr S]

/-- A send window, the log of its channel, the queue in front of it and everything written. -/
structure SendInv (ordered : Bool) (window : RingBuffer (PendingPacket S) 32)
    (log : List (Built S)) (queue wrote : List S) : Prop where
  newest : window.newest = seq (log.length - 1)
  pending : ∀ id p, window.get id = some p →
    ∃ (k : Nat) (b : Built S), id = seq k ∧ log[k]? = some b ∧ b.packet = p.packet ∧
      log.length ≤ k + 32
  built : ∀ (k : Nat) (b : Built S), log[k]? = some b → b.packet.reliable = true ∧
    b.packet.ordered = ordered ∧ b.packet.ack.sequenceId = seq k ∧
    Packet.dataLen b.packet.messages ≤ MAX_PACKET_DATA_LEN
  wrote : wrote = log.flatMap (fun b => b.packet.messages) ++ queue

variable {ordered : Bool} {window window' : RingBuffer (PendingPacket S) 32}
  {log : List (Built S)} {queue wrote : List S}

/-- Two packets of one log with one number, at most a turn apart, are the same. -/
theorem index_eq {i k : Nat} (h : seq i = seq k) (h1 : i < k + 65536) (h2 : k < i + 65536) :
    i = k := by
  have := seq_inj h (by omega) (by omega)
  omega

/-- The packet pending at `seq k`. -/
theorem SendInv.get_pending (h : SendInv ordered window log queue wrote) {k : Nat}
    (hk : k ∈ pendingIn window log.length) : ∃ p b, window.get (seq k) = some p ∧
      log[k]? = some b ∧ b.packet = p.packet := by
  obtain ⟨hlt, hnear, hsome⟩ := mem_pendingIn.mp hk
  obtain ⟨p, hp⟩ := Option.isSome_iff_exists.mp hsome
  obtain ⟨i, b, hi, hb, hpb, hn⟩ := h.pending _ p hp
  have hib : i < log.length := (List.getElem?_eq_some_iff.mp hb).1
  have := index_eq hi (by omega) (by omega)
  subst this
  exact ⟨p, b, hp, hb, hpb⟩

/-- A full window is one whose oldest packet is pending. -/
theorem SendInv.override_iff (h : SendInv ordered window log queue wrote) :
    window.pushWillOverride = true ↔
      ∃ k ∈ pendingIn window log.length, k + 32 = log.length := by
  have hnext : window.newest + 1 - UInt16.ofNat 32 = seq (log.length - 32) := by
    have h32 : UInt16.ofNat 32 = seq 32 := rfl
    rw [h.newest, h32, ← seq_add_one, ← seq_sub]
    congr 1; omega
  rw [RingBuffer.pushWillOverride_eq, hnext]
  constructor
  · intro hs
    obtain ⟨p, hp⟩ := Option.isSome_iff_exists.mp hs
    obtain ⟨k, b, hk, hb, -, hn⟩ := h.pending _ p hp
    have hkb : k < log.length := (List.getElem?_eq_some_iff.mp hb).1
    have hk' := seq_inj hk (by omega) (by omega)
    refine ⟨k, mem_pendingIn.mpr ⟨hkb, by omega, ?_⟩, by omega⟩
    rw [← hk]; exact hs
  · rintro ⟨k, hk, he⟩
    have : (log.length : Int) - 32 = k := by omega
    rw [this]
    exact (mem_pendingIn.mp hk).2.2

/-! ### A new packet -/

theorem SendInv.get_push (h : SendInv ordered window log queue wrote) (p : PendingPacket S)
    (id : UInt16) : (window.push p).get id =
    if id = seq log.length then some p
    else if (seq log.length - id).toNat < 32 then window.get id else none := by
  have e : window.newest + 1 = seq log.length := by
    rw [h.newest, ← seq_add_one]; congr 1; omega
  rw [RingBuffer.get_push, e]

/-- An iteration of the loop over the queue, with what the new packet is. -/
theorem SendInv.push (h : SendInv ordered window log queue wrote) {p : PendingPacket S}
    {named : Named} {rest : List S} (hreliable : p.packet.reliable = true)
    (hordered : p.packet.ordered = ordered) (hid : p.packet.ack.sequenceId = window.newest + 1)
    (hlen : Packet.dataLen p.packet.messages ≤ MAX_PACKET_DATA_LEN)
    (hqueue : queue = p.packet.messages ++ rest) :
    SendInv ordered (window.push p) (log ++ [⟨p.packet, named⟩]) rest wrote where
  newest := by
    rw [RingBuffer.newest_push, h.newest, ← seq_add_one, List.length_append]
    congr 1; simp
  pending id q hq := by
    rw [h.get_push] at hq
    split at hq
    · obtain rfl := Option.some.inj hq
      exact ⟨log.length, _, ‹_›, List.getElem?_concat_length, rfl, by simp⟩
    · split at hq
      · obtain ⟨k, b, rfl, hb, hbq, hn⟩ := h.pending id q hq
        have hk : k < log.length := (List.getElem?_eq_some_iff.mp hb).1
        rename_i hd
        rw [dist_seq] at hd
        refine ⟨k, b, rfl, by rw [List.getElem?_append_left hk, hb], hbq, ?_⟩
        simp; omega
      · cases hq
  built k b hb := by
    rw [List.getElem?_append] at hb
    split at hb
    · exact h.built k b hb
    · have hk : k = log.length := by
        have := (List.getElem?_eq_some_iff.mp hb).1
        simp at this; omega
      subst hk
      rw [Nat.sub_self] at hb
      obtain rfl := Option.some.inj hb
      refine ⟨hreliable, hordered, ?_, hlen⟩
      rw [hid, h.newest, ← seq_add_one]; congr 1; omega
  wrote := by rw [h.wrote, hqueue]; simp

/-- A new packet is an allocation if the window was not full. -/
theorem SendInv.alloc (h : SendInv ordered window log queue wrote) (p : PendingPacket S)
    (hroom : window.pushWillOverride = false) (accepted : List Nat) :
    SlidingWindow.Alloc 32 (viewOf window log.length accepted)
      (viewOf (window.push p) (log.length + 1) accepted) where
  next := rfl
  room k hk he := by
    have := h.override_iff.mpr ⟨k, hk, he⟩
    rw [hroom] at this; cases this
  pending k := by
    show k ∈ pendingIn _ _ ↔ k = log.length ∨ k ∈ pendingIn _ _
    have hroom' : k ∈ pendingIn window log.length → k + 32 ≠ log.length := fun hk he => by
      have := h.override_iff.mpr ⟨k, hk, he⟩
      rw [hroom] at this; cases this
    rw [mem_pendingIn, mem_pendingIn] at *
    rw [h.get_push]
    by_cases hk : k = log.length
    · subst hk; simp
    · constructor
      · rintro ⟨hlt, hn, hs⟩
        have hne : seq (k : Int) ≠ seq log.length := fun e => hk (index_eq e (by omega) (by omega))
        have hd : (seq (log.length : Int) - seq k).toNat < 32 := by rw [dist_seq]; omega
        rw [if_neg hne, if_pos hd] at hs
        exact .inr ⟨by omega, by omega, hs⟩
      · rintro (rfl | ⟨hlt, hn, hs⟩)
        · exact absurd rfl hk
        · have := hroom' ⟨hlt, hn, hs⟩
          have hne : seq (k : Int) ≠ seq log.length := fun e => hk (index_eq e (by omega) (by omega))
          have hd : (seq (log.length : Int) - seq k).toNat < 32 := by rw [dist_seq]; omega
          exact ⟨by omega, by omega, by rw [if_neg hne, if_pos hd]; exact hs⟩
  accepted := rfl

/-! ### Packets leave the window -/

theorem SendInv.shrink (h : SendInv ordered window log queue wrote) (hs : Shrinks window window') :
    SendInv ordered window' log queue wrote where
  newest := hs.newest.trans h.newest
  pending id p' hp' := by
    obtain ⟨p, hp, e⟩ := hs.pending id p' hp'
    obtain ⟨k, b, hk, hb, hbp, hn⟩ := h.pending id p hp
    exact ⟨k, b, hk, hb, hbp.trans e.symm, hn⟩
  built := h.built
  wrote := h.wrote

end Send

/-! ## Receive windows -/

section Receive

/-- A receive window, by its newest number and the numbers it shows as received, and the packets
accepted so far. -/
structure RecvInv (newest : UInt16) (has : UInt16 → Bool) (accepted : List Nat) : Prop where
  newest : newest = seq ((top accepted : Int) - 1)
  received : ∀ id, has id = true ↔ ∃ k : Nat, k ∈ accepted ∧ id = seq k ∧ top accepted ≤ k + 32

variable {newest newest' : UInt16} {has has' : UInt16 → Bool} {accepted : List Nat} {k : Nat}

/-- A packet's place relative to the receiver, such that the test for a too old packet is right
about what it drops: at most 32 ahead and 65 behind, or all numbers still in their first half. -/
def Near (k t : Nat) : Prop := k ≤ t + 32 ∧ t ≤ k + 65 ∨ k < 32768 ∧ t ≤ 32768

/-- Packets that left the window are too old. -/
theorem tooOld_of_left {t : Nat} (hnear : Near k t) (hleft : k + 32 < t) :
    wrappingGt (seq ((t : Int) - 1) - 31) (seq k) 64 = true := by
  have h31 : seq ((t : Int) - 1) - 31 = seq ((t : Int) - 32) := by
    have : (31 : UInt16) = seq 31 := rfl
    rw [this, ← seq_sub]; congr 1; omega
  have h64 : (64 : UInt16).toNat = 64 := rfl
  have hd : (seq ((t : Int) - 32) - seq (k : Int)).toNat = (t - 32 - k) % 65536 := by
    rw [dist_seq]; omega
  rw [h31]
  by_cases hclose : t ≤ k + 96
  · rw [wrappingGt_iff (by rw [h64]; decide) (by rw [h64, hd]; omega), h64, hd]
    omega
  · -- far apart, but then the plain values have not wrapped
    have hplain : k < 32768 ∧ t ≤ 32768 := by
      rcases hnear with h | h
      · omega
      · exact h
    have hd' : (seq (k : Int) - seq ((t : Int) - 32)).toNat = 65536 - (t - 32 - k) := by
      rw [dist_seq]; omega
    rw [wrappingGt_far (by rw [h64, hd]; omega) (by rw [h64, hd']; omega), toNat_seq, toNat_seq]
    omega

/-- Packets of the window, and those at most 32 ahead of it, are not too old. -/
theorem not_tooOld_of_near {t : Nat} (h1 : k ≤ t + 32) (h2 : t ≤ k + 32) :
    wrappingGt (seq ((t : Int) - 1) - 31) (seq k) 64 = false := by
  have h31 : seq ((t : Int) - 1) - 31 = seq ((t : Int) - 32) := by
    have : (31 : UInt16) = seq 31 := rfl
    rw [this, ← seq_sub]; congr 1; omega
  have h64 : (64 : UInt16).toNat = 64 := rfl
  have hd : (seq (k : Int) - seq ((t : Int) - 32)).toNat = k + 32 - t := by rw [dist_seq]; omega
  have hd' : (seq ((t : Int) - 32) - seq (k : Int)).toNat = (65536 - (k + 32 - t)) % 65536 := by
    rw [dist_seq]; omega
  rw [h31, ← Bool.not_eq_true, wrappingGt_iff (by rw [h64]; decide) (by rw [h64, hd]; omega), h64,
    hd']
  omega

/-- Only packets that are new and not older than the window pass the two tests. -/
theorem RecvInv.new_of_passes (h : RecvInv newest has accepted) (hnear : Near k (top accepted))
    (hdup : has (seq k) = false) (hold : wrappingGt (newest - 31) (seq k) 64 = false) :
    k ∉ accepted ∧ top accepted ≤ k + 32 := by
  have hle : top accepted ≤ k + 32 := by
    by_contra hc
    rw [h.newest, tooOld_of_left hnear (by omega)] at hold
    cases hold
  refine ⟨fun hk => ?_, hle⟩
  rw [(h.received _).mpr ⟨k, hk, rfl, hle⟩] at hdup
  cases hdup

/-- A new packet that is not older than the window and at most 32 ahead passes the two tests. -/
theorem RecvInv.passes_of_new (h : RecvInv newest has accepted) (hk : k ∉ accepted)
    (h1 : k ≤ top accepted + 32) (h2 : top accepted ≤ k + 32) :
    has (seq k) = false ∧ wrappingGt (newest - 31) (seq k) 64 = false := by
  refine ⟨Bool.eq_false_iff.mpr fun hc => ?_, ?_⟩
  · obtain ⟨i, hi, e, hn⟩ := (h.received _).mp hc
    have := lt_top hi
    exact hk (index_eq e (by omega) (by omega) ▸ hi)
  · rw [h.newest]
    exact not_tooOld_of_near h1 h2

/-- Inserting a packet that passes keeps the window in step with what was accepted. -/
theorem RecvInv.insert (h : RecvInv newest has accepted) (hle : top accepted ≤ k + 32)
    (hahead : k ≤ top accepted + 65000)
    (hnewest : newest' = if (newest - seq k).toNat < 32 then newest else seq k)
    (hhas : ∀ id, has' id = if id = seq k then true
      else if (newest' - id).toNat < 32 then has id else false) :
    RecvInv newest' has' (accepted ++ [k]) := by
  have hn : newest' = seq ((top (accepted ++ [k]) : Int) - 1) := by
    rw [hnewest, h.newest, dist_seq, top_append]
    by_cases hlt : k < top accepted
    · rw [if_pos (by omega), Nat.max_eq_left (by omega)]
    · rw [if_neg (by omega), Nat.max_eq_right (by omega)]
      congr 1; omega
  refine ⟨hn, fun id => ?_⟩
  rw [hhas]
  have htop := top_append accepted k
  split
  · rename_i e
    subst e
    simp only [true_iff]
    exact ⟨k, by simp, rfl, by omega⟩
  · rename_i hne
    constructor
    · intro hid
      split at hid
      · rename_i hd
        obtain ⟨i, hi, rfl, hin⟩ := (h.received _).mp hid
        have := lt_top hi
        rw [hn, dist_seq] at hd
        exact ⟨i, by simp [hi], rfl, by omega⟩
      · cases hid
    · rintro ⟨i, hi, rfl, hin⟩
      rcases List.mem_append.mp hi with hi | hi
      · have := lt_top hi
        rw [if_pos (by rw [hn, dist_seq]; omega)]
        exact (h.received _).mpr ⟨i, hi, rfl, by omega⟩
      · rw [List.mem_singleton.mp hi] at hne
        exact absurd rfl hne

end Receive

/-! ## Acknowledgements -/

section Acks

/-- The acknowledgement names `t` as the newest packet's successor, and only accepted packets. -/
structure AckOk (accepted : List Nat) (t : Nat) (ack : PacketAck) (ordered : Bool) : Prop where
  newest : ack.newest ordered = seq ((t : Int) - 1)
  le : t ≤ top accepted
  names : ∀ id, ack.names ordered id = true →
    ∃ k : Nat, k ∈ accepted ∧ id = seq k ∧ k < t ∧ t ≤ k + 32

/-- Acknowledgements stay right while more is accepted. -/
theorem AckOk.mono {accepted more : List Nat} {t : Nat} {ack : PacketAck} {ordered : Bool}
    (h : AckOk accepted t ack ordered) : AckOk (accepted ++ more) t ack ordered where
  newest := h.newest
  le := by
    refine h.le.trans (top_le fun k hk => lt_top ?_)
    exact List.mem_append_left more hk
  names id hid := by
    obtain ⟨k, hk, rest⟩ := h.names id hid
    exact ⟨k, List.mem_append_left more hk, rest⟩

/-- The acknowledgement of the current windows names exactly what they show. -/
theorem names_new {S R : Type} (com : InnerUdpCommunicator S R) (sequenceId : UInt16)
    (ordered : Bool) (id : UInt16) :
    (PacketAck.new sequenceId com.reliableReceivedPackets
      com.reliableOrderedReceivedPackets).names ordered id = com.hasReceived ordered id := by
  cases ordered
  · exact covers_ackBits com.reliableReceivedPackets id
  · exact covers_ackBits com.reliableOrderedReceivedPackets id

theorem newest_new {S R : Type} (com : InnerUdpCommunicator S R) (sequenceId : UInt16)
    (ordered : Bool) : (PacketAck.new sequenceId com.reliableReceivedPackets
      com.reliableOrderedReceivedPackets).newest ordered = com.newestReceived ordered := by
  cases ordered <;> rfl

theorem AckOk.new {S R : Type} {com : InnerUdpCommunicator S R} {accepted : List Nat}
    {ordered : Bool}
    (h : RecvInv (com.newestReceived ordered) (com.hasReceived ordered) accepted)
    (sequenceId : UInt16) : AckOk accepted (top accepted) (PacketAck.new sequenceId
      com.reliableReceivedPackets com.reliableOrderedReceivedPackets) ordered where
  newest := by rw [newest_new]; exact h.newest
  le := Nat.le_refl _
  names id hid := by
    rw [names_new] at hid
    obtain ⟨k, hk, e, hn⟩ := (h.received id).mp hid
    exact ⟨k, hk, e, lt_top hk, hn⟩

/-- What an acknowledgement takes out of a window has been accepted, if not too much has been
built since. -/
theorem AckOk.gone_accepted {S : Type} {window : RingBuffer (PendingPacket S) 32}
    {accepted : List Nat} {t n : Nat} {ack : PacketAck} {ordered : Bool}
    (h : AckOk accepted t ack ordered) (hlt : ∀ k ∈ accepted, k < n) (hlag : n ≤ t + 65000) :
    ∀ k ∈ gone window (takeAcked (ack.newest ordered) (ack.bits ordered) window) n,
      k ∈ accepted := by
  intro k hk
  obtain ⟨hp, hnone⟩ := mem_gone.mp hk
  obtain ⟨hkn, hnear, hsome⟩ := mem_pendingIn.mp hp
  rw [get_takeAcked] at hnone
  have hnames : ack.names ordered (seq k) = true := by
    by_contra hc
    unfold PacketAck.names at hc
    rw [if_neg hc] at hnone
    rw [hnone] at hsome; cases hsome
  obtain ⟨i, hi, he, hit, hti⟩ := h.names _ hnames
  have := hlt i hi
  have e : k = i := index_eq he (by omega) (by omega)
  exact e ▸ hi

end Acks

end MiniUdp
