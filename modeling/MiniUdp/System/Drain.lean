import MiniUdp.System.Talk

/-!
# Connections that drain

A connection that nothing is written to any more gets rid of all its work just
when it is not deadlocked (`drains_iff`). When a side that is able to answer has
heard everything, its answer empties the other side's windows (`Live.round`).
With empty windows that side is able to answer in turn, and its queues get
shorter, so that both sides are done after finitely many rounds
(`Live.settles_of_clear`).
-/

namespace MiniUdp

open Serial InnerUdpCommunicator Relation

variable {S R Buf D : Type}

/-! ## Sides that can answer -/

namespace Endpoint

/-- `x` builds a packet in the next call of `send`, or has nothing to build one from. -/
def Able (x : Endpoint S R Buf) : Prop :=
  x.com.unreliableSendQueue ≠ [] ∨ (∀ ordered, x.com.sendQueue ordered = []) ∨
    ∃ ordered, x.com.sendQueue ordered ≠ [] ∧
      (x.com.sendWindow ordered).pushWillOverride = false

/-- No reliable packet waits for an acknowledgement. -/
def Clear (x : Endpoint S R Buf) : Prop := ∀ ordered, x.pending ordered = []

theorem Clear.room [ByteRepr S] {x : Endpoint S R Buf} (h : x.Clear) (hx : x.Inv)
    (ordered : Bool) : (x.com.sendWindow ordered).pushWillOverride = false := by
  rw [← Bool.not_eq_true, (hx.send ordered).override_iff]
  rintro ⟨k, hk, -⟩
  have hk : k ∈ x.pending ordered := hk
  rw [h ordered] at hk
  cases hk

theorem Clear.able [ByteRepr S] {x : Endpoint S R Buf} (h : x.Clear) (hx : x.Inv) : x.Able := by
  by_cases hq : ∀ ordered, x.com.sendQueue ordered = []
  · exact .inr (.inl hq)
  · obtain ⟨ordered, hq⟩ := not_forall.mp hq
    exact .inr (.inr ⟨ordered, hq, h.room hx ordered⟩)

theorem Clear.isEmpty [ByteRepr S] {x : Endpoint S R Buf} (h : x.Clear) (hx : x.Inv)
    (ordered : Bool) : (x.com.sendWindow ordered).isEmpty = true := by
  rw [RingBuffer.isEmpty_iff]
  intro id
  rw [← Option.not_isSome_iff_eq_none]
  intro hsome
  obtain ⟨p, hp⟩ := Option.isSome_iff_exists.mp hsome
  have hk := (hx.indexOf hp).1
  rw [h ordered] at hk
  cases hk

end Endpoint

section Answer

variable {x x' : Endpoint S R Buf} {y : Endpoint R S Buf} {heard out : List (Datagram D)}

theorem Hears.clear (h : Hears y heard x x') (hx : x.Clear) : x'.Clear := fun ordered => by
  refine List.eq_nil_iff_forall_not_mem.mpr fun k hk => ?_
  have hk : k ∈ x.pending ordered := h.outgoing (.reliable ordered) hk
  rw [hx ordered] at hk
  cases hk

theorem Hears.able (h : Hears y heard x x') (hx : x.Able) : x'.Able := by
  unfold Endpoint.Able
  rw [h.unreliable]
  simp only [h.queue]
  refine hx.imp id (Or.imp id ?_)
  rintro ⟨ordered, hq, hroom⟩
  refine ⟨ordered, hq, ?_⟩
  -- what is not in the way does not get there
  rw [RingBuffer.pushWillOverride_eq_get, ← Bool.not_eq_true, RingBuffer.getNextIndex] at hroom ⊢
  intro hsome
  obtain ⟨p', hp'⟩ := Option.isSome_iff_exists.mp hsome
  obtain ⟨p, hp, -⟩ := (h.shrinks ordered).pending _ p' hp'
  rw [(h.shrinks ordered).newest] at hp
  exact hroom (Option.isSome_iff_exists.mpr ⟨p, hp⟩)

/-- With nothing to build packets from, the windows stay empty. -/
theorem Speaks.clear [ByteRepr S] {la : Link S Buf D} (h : Speaks la x x' out) (hx : x.Clear)
    (hq : ∀ ordered, x.com.sendQueue ordered = []) : x'.Clear := fun ordered => by
  refine List.eq_nil_iff_forall_not_mem.mpr fun k hk => ?_
  rcases (h.sends.step fun _ => []).pending ordered k hk with hold | hnew
  · rw [hx ordered] at hold
    cases hold
  · have hlt := (mem_pendingIn.mp hk).1
    rw [h.idle ordered (hq ordered)] at hlt
    omega

end Answer

/-- An endpoint that waits for nothing sends nothing old. -/
theorem lagging_of_clear {x : Endpoint S R Buf} {y : Endpoint R S Buf} (h : x.Clear)
    (hwait : x.com.unreliableSendPackets = []) (n : Nat) : Lagging x y n := by
  intro channel k b hk
  cases channel with
  | unreliable =>
    obtain ⟨hlt, hle⟩ := hk
    rw [hwait, List.length_nil] at hle
    omega
  | reliable ordered =>
    have hk : k ∈ x.pending ordered := hk
    rw [h ordered] at hk
    cases hk

theorem hasWork_of_clear [ByteRepr S] {x : Endpoint S R Buf} (hx : x.Inv) (h : x.Clear)
    (hq : ∀ ordered, x.com.sendQueue ordered = []) (hu : x.com.unreliableSendQueue = [])
    (hwait : x.com.unreliableSendPackets = []) : x.com.hasWork = false := by
  have hr : x.com.reliableSendQueue = [] := hq false
  have ho : x.com.reliableOrderedSendQueue = [] := hq true
  have hrw : x.com.reliableSendPackets.isEmpty = true := h.isEmpty hx false
  have how : x.com.reliableOrderedSendPackets.isEmpty = true := h.isEmpty hx true
  simp only [hasWork, hr, ho, hrw, how, hu, hwait, List.isEmpty_nil, Bool.and_self, Bool.not_true]

/-- How many messages wait in the queues of the reliable channels. -/
def Endpoint.queued (x : Endpoint S R Buf) : Nat :=
  (x.com.sendQueue false).length + (x.com.sendQueue true).length

theorem queued_le {x x' : Endpoint S R Buf}
    (hle : ∀ ordered, (x'.com.sendQueue ordered).length ≤ (x.com.sendQueue ordered).length) :
    x'.queued ≤ x.queued := Nat.add_le_add (hle false) (hle true)

theorem queued_lt {x x' : Endpoint S R Buf}
    (hle : ∀ ordered, (x'.com.sendQueue ordered).length ≤ (x.com.sendQueue ordered).length)
    {ordered : Bool}
    (hlt : (x'.com.sendQueue ordered).length < (x.com.sendQueue ordered).length) :
    x'.queued < x.queued := by
  have hf := hle false
  have ht := hle true
  unfold Endpoint.queued
  cases ordered <;> omega

namespace System

/-! ## Rounds -/

section Round

variable [ByteRepr S] [ByteRepr R] {la : Link S Buf D} {lb : Link R Buf D} {s t : System S R Buf D}
  {n m : Nat}

/-- When `a` has accepted all that `b` waits for and builds a packet, the packet clears `b`. -/
theorem Live.answer (h : Live la lb s) (hla : la.Faithful) (hlb : lb.Faithful) (hn : 32 ≤ n)
    (hn' : n ≤ 65000) (hlag : Lagging s.a s.b n)
    (haccepted : ∀ ordered, ∀ k ∈ s.b.pending ordered, k ∈ s.a.accepted ordered)
    (hbuilds : s.a.com.unreliableSendQueue ≠ [] ∨ s.a.com.heartbeatDue = true ∨
      ∃ ordered, s.a.com.sendQueue ordered ≠ [] ∧
        (s.a.com.sendWindow ordered).pushWillOverride = false) :
    ∃ t out, Talked la lb s t out ∧ t.b.Clear := by
  obtain ⟨t, out, d, b, htalked, hnew, hb, hfirst⟩ := h.talk_first hla hlb hn hn' hlag
    (P := fun _ d => d.index = (s.a.builtIn d.channel).length) (by
      intro a out hspeaks
      obtain ⟨channel, hlt⟩ := hspeaks.builds hbuilds
      obtain ⟨d, hd, rfl, hindex⟩ := hspeaks.handed channel _ (.inr (Nat.le_refl _)) hlt
      exact ⟨d, hd, hindex⟩)
  refine ⟨t, out, htalked, fun ordered => List.eq_nil_iff_forall_not_mem.mpr fun k hk => ?_⟩
  have hack := (htalked.speaks.fresh d.channel d.index b hb (Nat.le_of_eq hnew.symm)).2
  have haccepts : b.packet.reliable = true → s.b.com.accepts b.packet = true := by
    intro hr
    cases hch : d.channel with
    | unreliable =>
      rw [hch] at hb
      rw [(htalked.live.inv.a.unreliable b (List.mem_of_getElem? hb)).1] at hr
      cases hr
    | reliable ordered =>
      rw [hch] at hb hnew
      obtain ⟨-, ho, hid, -⟩ := (htalked.live.inv.a.send ordered).built d.index b hb
      have hnew : d.index = (s.a.log ordered).length := hnew
      have hlt := h.inv.ab.accepted_lt ordered
      have hnext : (s.a.log ordered).length ≤ top (s.b.accepted ordered) + 32 :=
        ((h.inv.ab.covered h.noGiveUp.1).view ordered).next_le fun k hk => lt_top hk
      have htop : top (s.b.accepted ordered) ≤ (s.a.log ordered).length := top_le hlt
      refine accepts_of_new h.inv.b.receiver ho hid (fun hacc => ?_) (by omega) (by omega)
      exact absurd (hlt _ hacc) (by omega)
  -- the packet names everything that `b` waits for
  have hk' : k ∈ s.b.pending ordered := htalked.hears.outgoing (.reliable ordered) hk
  obtain ⟨hlt, hn, -⟩ := mem_pendingIn.mp hk'
  have htop : top (s.a.accepted ordered) ≤ (s.b.log ordered).length :=
    top_le (h.inv.ba.accepted_lt ordered)
  have hreceived : s.a.com.hasReceived ordered (seq k) = true :=
    ((h.inv.a.receiver.windows ordered).received _).mpr
      ⟨k, haccepted ordered k hk', rfl, htop.trans hn⟩
  have hnames : b.packet.ack.names ordered (seq k) = true := by
    rw [hack, names_new]
    exact hreceived
  rcases (onPacket_sendSide 0 s.b.com b.packet).1 with ⟨⟨hr, hdropped⟩, -⟩ | ⟨-, hwindow⟩
  · rw [haccepts hr] at hdropped
    cases hdropped
  · obtain ⟨p', hp'⟩ := Option.isSome_iff_exists.mp (mem_pendingIn.mp hk).2.2
    obtain ⟨p, hp, -⟩ := (hfirst ordered).pending _ p' hp'
    unfold PacketAck.names at hnames
    rw [hwindow, get_takeAcked, if_pos hnames] at hp
    cases hp

/-- `b` has told everything, and `a` has answered. -/
structure Answered (la : Link S Buf D) (lb : Link R Buf D) (s t : System S R Buf D) : Prop where
  run : ReflTransGen (Quiet la lb) s t
  live : Live la lb t
  clear : t.b.Clear
  waitingA : t.a.com.unreliableSendQueue = [] ∧ t.a.com.unreliableSendPackets = []
  waitingB : t.b.com.unreliableSendQueue = [] ∧ t.b.com.unreliableSendPackets = []
  queueA : ∀ ordered, (t.a.com.sendQueue ordered).length ≤ (s.a.com.sendQueue ordered).length
  queueB : ∀ ordered, (t.b.com.sendQueue ordered).length ≤ (s.b.com.sendQueue ordered).length
  shorter : s.a.Clear → ∀ ordered, s.a.com.sendQueue ordered ≠ [] →
    (t.a.com.sendQueue ordered).length < (s.a.com.sendQueue ordered).length
  clearA : s.a.Clear → (∀ ordered, s.a.com.sendQueue ordered = []) → t.a.Clear

/-- A side that is able to answer clears the windows of the other one. -/
theorem Live.round (h : Live la lb s) (hla : la.Faithful) (hlb : lb.Faithful) (hable : s.a.Able)
    (hn : 32 ≤ n) (hn' : n ≤ 65000) (hlagB : Lagging s.b s.a n) (hm' : m + 96 ≤ 65000)
    (hlagA : Lagging s.a s.b m) : ∃ t, Answered la lb s t ∧ Lagging t.a t.b (m + 96) := by
  obtain ⟨t1, out1, h1⟩ := h.swap.talk hlb hla hn hn' hlagB
  have hlag1 := h1.lagging h.swap hlagB hn
  obtain ⟨t2, out2, h2⟩ := h1.live.talk hlb hla hn hn' hlag1
  have hlag2 : Lagging t2.b t2.a (m + 96) := by
    have := h2.lagging_other h1.live (h1.lagging_other h.swap hlagA)
    exact fun channel k b hk hb ordered => (this channel k b hk hb ordered).trans (by omega)
  have hable2 : t2.b.Able := h2.hears.able (h1.hears.able hable)
  obtain ⟨t, out, h3, hclear⟩ : ∃ t out, Talked la lb t2.swap t out ∧ t.b.Clear := by
    by_cases hbuilds : t2.b.com.unreliableSendQueue ≠ [] ∨ t2.b.com.heartbeatDue = true ∨
        ∃ ordered, t2.b.com.sendQueue ordered ≠ [] ∧
          (t2.b.com.sendWindow ordered).pushWillOverride = false
    · exact h2.live.swap.answer hla hlb (by omega) hm' hlag2 h2.accepted hbuilds
    · -- nothing new has come in, so that the other side waits for nothing
      simp only [not_or, not_not] at hbuilds
      obtain ⟨hunreliable, hdue, hroom⟩ := hbuilds
      have hidle : ∀ ordered, t2.b.com.sendQueue ordered = [] :=
        (hable2.resolve_left fun hne => hne hunreliable).resolve_right hroom
      have hflag : t2.b.com.receivedPacketDuplicate ≠ true := by
        intro hflag
        have hr : t2.b.com.reliableSendQueue = [] := hidle false
        have ho : t2.b.com.reliableOrderedSendQueue = [] := hidle true
        refine hdue ?_
        simp only [heartbeatDue, hflag, hr, ho, hunreliable, List.isEmpty_nil, Bool.and_self]
      have hclear1 : t1.a.Clear := fun ordered => by
        refine List.eq_nil_iff_forall_not_mem.mpr fun k hk => hflag ?_
        exact h2.owes hk (h1.accepted ordered k hk)
      have hqueue1 : ∀ ordered, t1.a.com.sendQueue ordered = [] := fun ordered => by
        by_contra hne
        have hfull := h1.speaks.stops ordered hne
        rw [hclear1.room h1.live.inv.a ordered] at hfull
        cases hfull
      obtain ⟨t, out, h3⟩ := h2.live.swap.talk hla hlb (by omega) hm' hlag2
      exact ⟨t, out, h3, h3.hears.clear (h2.speaks.clear hclear1 hqueue1)⟩
  have hqueueA : ∀ ordered, t2.b.com.sendQueue ordered = s.a.com.sendQueue ordered :=
    fun ordered => (h2.hears.queue ordered).trans (h1.hears.queue ordered)
  have hclearA : s.a.Clear → t2.b.Clear := fun hc => h2.hears.clear (h1.hears.clear hc)
  refine ⟨t, ⟨?_, h3.live, hclear, ⟨h3.speaks.unreliable, h3.speaks.waiting⟩,
    ⟨h3.hears.unreliable.trans h2.speaks.unreliable, h3.hears.waiting.trans h2.speaks.waiting⟩,
    fun ordered => ?_, fun ordered => ?_, fun hc ordered hq => ?_, fun hc hq => ?_⟩,
    h3.lagging h2.live.swap hlag2 (by omega)⟩
  · exact ((run_swap h1.run).trans (run_swap h2.run)).trans h3.run
  · rw [← hqueueA]
    exact (h3.speaks.queue ordered).length_le
  · rw [h3.hears.queue]
    exact ((h2.speaks.queue ordered).trans (h1.speaks.queue ordered)).length_le
  · rw [← hqueueA] at hq ⊢
    exact h3.speaks.room ordered hq ((hclearA hc).room h2.live.inv.b ordered)
  · exact h3.speaks.clear (hclearA hc) fun ordered => (hqueueA ordered).trans (hq ordered)

/-- By steps without writes, all work is done. -/
structure Settles (la : Link S Buf D) (lb : Link R Buf D) (s t : System S R Buf D) : Prop where
  run : ReflTransGen (Quiet la lb) s t
  live : Live la lb t
  drained : Drained t

/-- Once a side is clear, the two sides answer in turn until nothing is left. -/
theorem Live.settles_of_clear (hla : la.Faithful) (hlb : lb.Faithful) (total : Nat)
    (htotal : s.a.queued + s.b.queued = total) (h : Live la lb s) (hclear : s.b.Clear)
    (hwait : s.b.com.unreliableSendPackets = []) (hlag : Lagging s.a s.b 60000) :
    ∃ t, Settles la lb s t := by
  induction total using Nat.strongRecOn generalizing s with
  | ind total ih =>
    obtain ⟨t, ht, hlagt⟩ := h.swap.round hlb hla (hclear.able h.inv.b) (by omega) (by omega) hlag
      (by omega) (lagging_of_clear hclear hwait 0)
    obtain ⟨u, hu, hlagu⟩ := ht.live.swap.round hla hlb (ht.clear.able ht.live.inv.b) (by omega)
      (by omega) hlagt (by omega) (lagging_of_clear ht.clear ht.waitingB.2 0)
    have hrun : ReflTransGen (Quiet la lb) s u := (run_swap ht.run).trans hu.run
    by_cases hdone : u.a.queued + u.b.queued < total
    · obtain ⟨v, hv⟩ := ih _ hdone rfl hu.live hu.clear hu.waitingB.2
        fun channel k b hk hb ordered => (hlagu channel k b hk hb ordered).trans (by omega)
      exact ⟨v, hrun.trans hv.run, hv.live, hv.drained⟩
    · -- no queue got shorter, so that there was nothing in them
      have hleB : t.a.queued ≤ s.b.queued := queued_le ht.queueA
      have hleA : t.b.queued ≤ s.a.queued := queued_le ht.queueB
      have hleA' : u.a.queued ≤ t.b.queued := queued_le hu.queueA
      have hleB' : u.b.queued ≤ t.a.queued := queued_le hu.queueB
      have hqueueB : ∀ ordered, s.b.com.sendQueue ordered = [] := fun ordered => by
        by_contra hne
        have hlt : t.a.queued < s.b.queued := queued_lt ht.queueA (ht.shorter hclear ordered hne)
        omega
      have hqueueA : ∀ ordered, t.b.com.sendQueue ordered = [] := fun ordered => by
        by_contra hne
        have hlt : u.a.queued < t.b.queued :=
          queued_lt hu.queueA (hu.shorter ht.clear ordered hne)
        omega
      have hnil : ∀ {T : Type} {l l' : List T}, l'.length ≤ l.length → l = [] → l' = [] := by
        intro T l l' hle hl
        rw [hl] at hle
        exact List.eq_nil_of_length_eq_zero (Nat.le_zero.mp hle)
      refine ⟨u, hrun, hu.live, ⟨hu.live.ab, hu.live.ba, hu.live.noGiveUp, ?_, ?_⟩⟩
      · refine hasWork_of_clear hu.live.inv.a (hu.clearA ht.clear hqueueA) (fun ordered => ?_)
          hu.waitingA.1 hu.waitingA.2
        exact hnil (hu.queueA ordered) (hqueueA ordered)
      · refine hasWork_of_clear hu.live.inv.b hu.clear (fun ordered => ?_)
          hu.waitingB.1 hu.waitingB.2
        exact hnil (hu.queueB ordered) (hnil (ht.queueA ordered) (hqueueB ordered))

end Round

/-! ## Draining -/

section Drains

variable [ByteRepr S] [ByteRepr R] {la : Link S Buf D} {lb : Link R Buf D} {s t : System S R Buf D}

theorem Settles.swap {t : System R S Buf D} (h : Settles lb la s.swap t) :
    Settles la lb s t.swap :=
  ⟨run_swap h.run, h.live.swap, ⟨h.drained.ba, h.drained.ab, h.drained.noGiveUp.symm, h.drained.b,
    h.drained.a⟩⟩

/-- If `a` is able to answer, all work can be done. -/
theorem Live.settles_of_able (h : Live la lb s) (hla : la.Faithful) (hlb : lb.Faithful)
    (hable : s.a.Able) {n : Nat} (hn' : n + 96 ≤ 60000) (hlagA : Lagging s.a s.b n)
    (hlagB : Lagging s.b s.a 60000) : ∃ t, Settles la lb s t := by
  obtain ⟨t, ht, hlag⟩ := h.round hla hlb hable (by omega) (by omega) hlagB (by omega) hlagA
  obtain ⟨u, hu⟩ := ht.live.settles_of_clear hla hlb _ rfl ht.clear ht.waitingB.2
    fun channel k b hk hb ordered => (hlag channel k b hk hb ordered).trans (by omega)
  exact ⟨u, ht.run.trans hu.run, hu.live, hu.drained⟩

/-- If the other side still sends something useful, `a` becomes able to answer. -/
theorem Live.settles_of_not_stuck (h : Live la lb s) (hla : la.Faithful) (hlb : lb.Faithful)
    (hlagA : Lagging s.a s.b 50000) (hlagB : Lagging s.b s.a 50000) (hs : ¬ Stuck s.a s.b) :
    ∃ t, Settles la lb s t := by
  by_cases hable : s.a.Able
  · exact h.settles_of_able hla hlb hable (by omega) hlagA fun channel k b hk hb ordered =>
      (hlagB channel k b hk hb ordered).trans (by omega)
  · obtain ⟨hunreliable, hrest⟩ := not_or.mp hable
    obtain ⟨hqueued, hroom⟩ := not_or.mp hrest
    have hfull : ∀ ordered, s.a.com.sendQueue ordered ≠ [] →
        (s.a.com.sendWindow ordered).pushWillOverride = true := fun ordered hq =>
      by_contra fun hr => hroom ⟨ordered, hq, Bool.eq_false_of_not_eq_true hr⟩
    obtain ⟨packet, hpacket, huseful⟩ : ∃ packet, s.b.StillSends packet ∧ ¬ Useless s.a packet := by
      by_contra hc
      exact hs ⟨not_not.mp hunreliable, not_forall.mp hqueued, hfull, fun packet hp =>
        by_contra fun hu => hc ⟨packet, hp, hu⟩⟩
    obtain ⟨channel, index, b, hout, hb, rfl⟩ := h.inv.b.outgoing hpacket
    simp only [Useless, Classical.not_imp, not_forall, Bool.not_eq_false] at huseful
    obtain ⟨haccepts, ordered, hq, hnames⟩ := huseful
    obtain ⟨t, out, d, b', ht, ⟨hch, hindex⟩, hb', hfirst⟩ := h.swap.talk_first hlb hla
      (by omega) (by omega) hlagB (P := fun _ d => d.channel = channel ∧ d.index = index) (by
        intro y out hspeaks
        have hlt := (Endpoint.Outgoing.lt hout).trans_le
          ((hspeaks.sends.step fun _ => []).log channel).length_le
        obtain ⟨d, hd, hp⟩ := hspeaks.handed channel index (.inl hout) hlt
        exact ⟨d, hd, hp⟩)
    rw [hch, hindex] at hb'
    have hsame := getElem?_of_prefix ((ht.speaks.sends.step fun _ => []).log channel) hb
    obtain rfl := Option.some.inj (hsame.symm.trans hb')
    have hable : t.b.Able := by
      refine .inr (.inr ⟨ordered, (ht.hears.queue ordered).trans_ne hq, ?_⟩)
      rcases (onPacket_sendSide 0 s.a.com b.packet).1 with ⟨⟨hr, hdropped⟩, -⟩ | ⟨-, hwindow⟩
      · rw [haccepts hr] at hdropped
        cases hdropped
      · -- the place that was taken is free
        have hshrinks : Shrinks _ (t.b.com.sendWindow ordered) := hwindow ordered ▸ hfirst ordered
        unfold PacketAck.names at hnames
        rw [RingBuffer.getNextIndex] at hnames
        rw [RingBuffer.pushWillOverride_eq_get, RingBuffer.getNextIndex, hshrinks.newest,
          newest_takeAcked, ← Bool.not_eq_true]
        intro hsome
        obtain ⟨p', hp'⟩ := Option.isSome_iff_exists.mp hsome
        obtain ⟨p, hp, -⟩ := hshrinks.pending _ p' hp'
        rw [get_takeAcked, if_pos hnames] at hp
        cases hp
    have hlagA' : Lagging t.b t.a (50000 + 32) := ht.lagging_other h.swap hlagA
    have hlagB' : Lagging t.a t.b 50000 := ht.lagging h.swap hlagB (by omega)
    obtain ⟨u, hu⟩ := ht.live.swap.settles_of_able hla hlb hable (by omega) hlagA'
      fun channel k b hk hb ordered => (hlagB' channel k b hk hb ordered).trans (by omega)
    exact ⟨u, (run_swap ht.run).trans hu.run, hu.live, hu.drained⟩

/-- The messages that wait in a state reached by small writes fit a packet. -/
theorem Reachable.fits (h : Reachable la lb SmallWrites s) :
    (∀ channel, ∀ m ∈ s.a.com.queueOf channel, MiniUdp.fits m = true) ∧
      ∀ channel, ∀ m ∈ s.b.com.queueOf channel, MiniUdp.fits m = true := by
  induction h with
  | initial h =>
    obtain ⟨socketA, socketB, t1, t2, t3, t4⟩ := h
    exact ⟨(supplied_start socketA t1 t2).queue, (supplied_start socketB t3 t4).queue⟩
  | @step s t act _ hp hs ih =>
    cases act with
    | atA event =>
      simp only [System.step, System.stepA] at hs
      split at hs
      · cases hs
        exact ⟨fits_step ih.1 hp ‹_›, ih.2⟩
      · cases hs
    | atB event =>
      simp only [System.step, System.stepB] at hs
      split at hs
      · cases hs
        exact ⟨ih.1, fits_step ih.2 hp ‹_›⟩
      · cases hs

/-- If not both sides are stuck, all work can be done, even if everything on the way is lost. -/
theorem Reachable.settles (hla : la.Faithful) (hlb : lb.Faithful)
    (h : Reachable la lb SmallWrites s) (hb : Bounded s) (hg : NoGiveUp s)
    (hlive : ¬ s.Deadlocked) : ∃ t, Settles la lb { s with ab := [], ba := [] } t := by
  have hinv := h.inv_of_bounded hla hlb hb
  have hstart : Live la lb { s with ab := [], ba := [] } :=
    ⟨hinv.subset (List.nil_subset _) (List.nil_subset _), hg, rfl, rfl, h.fits.1, h.fits.2⟩
  have hlagA : Lagging s.a s.b 50000 := fun _ _ _ _ _ ordered => by
    have := (hb ordered).2
    omega
  have hlagB : Lagging s.b s.a 50000 := fun _ _ _ _ _ ordered => by
    have := (hb ordered).1
    omega
  rcases not_and_or.mp hlive with hs | hs
  · exact hstart.settles_of_not_stuck hla hlb hlagA hlagB hs
  · obtain ⟨t, ht⟩ := hstart.swap.settles_of_not_stuck hlb hla hlagB hlagA hs
    exact ⟨t.swap, Settles.swap ht⟩

/-- A connection gets rid of all its work, once nothing is written to it and nothing is lost any
more, just when it is not deadlocked. -/
theorem drains_iff (hla : la.Faithful) (hlb : lb.Faithful) (h : Reachable la lb SmallWrites s)
    (hb : Bounded s) (hg : NoGiveUp s) : Drains la lb s ↔ ¬ s.Deadlocked := by
  refine ⟨fun hdrains hdead => ?_, fun hlive => ?_⟩
  · obtain ⟨t, hrun, ht⟩ := hdrains
    exact hdead.not_comesToRest hla hlb (h.inv_of_bounded hla hlb hb) hb ⟨t, hrun, ht.atRest⟩
  · obtain ⟨t, ht⟩ := h.settles hla hlb hb hg hlive
    exact ⟨t, ht.run, ht.drained⟩

theorem reachable_exchanged_small : Reachable demoLink demoLink SmallWrites exchanged := by
  unfold exchanged exchange
  refine .after (.after (.after (.after (.initial ?_) rfl) rfl) trivial) trivial
  exact .start _ _ 0 0 0 0

theorem drains_iff_exchanged : Drains demoLink demoLink exchanged ↔ ¬ exchanged.Deadlocked :=
  drains_iff demoLink_faithful demoLink_faithful reachable_exchanged_small
    (fun ordered => by cases ordered <;> decide +kernel) noGiveUp_exchanged

/-- The connection can come to rest just when it is not deadlocked. -/
theorem comesToRest_iff (hla : la.Faithful) (hlb : lb.Faithful) (h : Reachable la lb SmallWrites s)
    (hb : Bounded s) (hg : NoGiveUp s) : ComesToRest la lb s ↔ ¬ s.Deadlocked := by
  refine ⟨fun hrest hdead => ?_, fun hlive => ?_⟩
  · exact hdead.not_comesToRest hla hlb (h.inv_of_bounded hla hlb hb) hb hrest
  · obtain ⟨t, ht⟩ := h.settles hla hlb hb hg hlive
    exact ⟨t, ht.run, ht.drained.atRest⟩

theorem comesToRest_iff_exchanged :
    ComesToRest demoLink demoLink exchanged ↔ ¬ exchanged.Deadlocked :=
  comesToRest_iff demoLink_faithful demoLink_faithful reachable_exchanged_small
    (fun ordered => by cases ordered <;> decide +kernel) noGiveUp_exchanged

end Drains

/-! ## Everything arrives -/

section Delivered

variable [ByteRepr S] [ByteRepr R] {la : Link S Buf D} {lb : Link R Buf D} {s t : System S R Buf D}

omit [ByteRepr R] in
theorem wrote_step {out : Link S Buf D} {inn : Link R Buf D} {incoming new : List (Datagram D)}
    {x x' : Endpoint S R Buf} {event : Event S} (hq : event.Quiet)
    (hs : x.step out inn incoming event = some (x', new)) :
    x'.wroteReliable = x.wroteReliable ∧ x'.wroteOrdered = x.wroteOrdered := by
  cases event with
  | send env =>
    obtain ⟨com, packets, com', st, error, -, -, rfl, -⟩ := Endpoint.send_eq_some.mp hs
    exact ⟨rfl, rfl⟩
  | deliver place now =>
    simp only [Endpoint.step] at hs
    split at hs
    · simp only [Option.map_eq_some_iff, Prod.mk.injEq] at hs
      obtain ⟨z, hz, rfl, -⟩ := hs
      unfold Endpoint.deliver at hz
      split at hz <;> cases hz <;> exact ⟨rfl, rfl⟩
    · cases hs
  | topUp retries =>
    cases hs
    exact ⟨rfl, rfl⟩
  | _ => exact hq.elim

/-- What has been written on either side. -/
def wrote (s : System S R Buf D) : (List S × List S) × List R × List R :=
  ((s.a.wroteReliable, s.a.wroteOrdered), s.b.wroteReliable, s.b.wroteOrdered)

theorem Quiet.wrote (h : Quiet la lb s t) : t.wrote = s.wrote := by
  cases h with
  | atA hq hs =>
    unfold stepA at hs
    split at hs
    · cases hs
      obtain ⟨hr, ho⟩ := wrote_step hq ‹_›
      simp only [System.wrote, hr, ho]
    · cases hs
  | atB hq hs =>
    unfold stepB at hs
    split at hs
    · cases hs
      obtain ⟨hr, ho⟩ := wrote_step hq ‹_›
      simp only [System.wrote, hr, ho]
    · cases hs

end Delivered

end System

end MiniUdp
