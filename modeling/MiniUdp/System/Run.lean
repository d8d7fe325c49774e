import MiniUdp.System.Receiving

/-!
# Runs of a connection

`System.Inv` holds in the default state and is kept by every step whose delivery,
if it is one, is `Ready`. Deliveries are ready if the network is `Prompt` and
nothing is given up (`Reachable.inv_of_prompt`), or if there are few packets
(`Reachable.inv_of_bounded`).
-/

namespace MiniUdp

open Serial InnerUdpCommunicator

variable {S R Buf D : Type} [ByteRepr S] {la : Link S Buf D} {lb : Link R Buf D}

/-! ## The default state -/

section Start

theorem recvInv_new {T : Type} : RecvInv (RingBuffer.new : RingBuffer T 32).newest
    (fun id => ((RingBuffer.new : RingBuffer T 32).get id).isSome) [] where
  newest := rfl
  received id := by simp

theorem sendInv_new (ordered : Bool) :
    SendInv (S := S) ordered (RingBuffer.new : RingBuffer (PendingPacket S) 32) [] [] [] where
  newest := rfl
  pending id p hp := by simp at hp
  built k b hb := by simp at hb
  wrote := rfl

variable (socket : UdpCommunicatorSocket Buf) (lastSeen lastSend : Instant)

theorem Endpoint.inv_start : (Endpoint.start socket lastSeen lastSend : Endpoint S R Buf).Inv where
  send := Bool.forall_bool.mpr ⟨sendInv_new false, sendInv_new true⟩
  receiver := ⟨Bool.forall_bool.mpr ⟨recvInv_new, recvInv_new⟩,
    Bool.forall_bool.mpr ⟨List.nodup_nil, List.nodup_nil⟩, rfl, rfl, fun p hp => nomatch hp⟩
  acks c b hb := by
    cases c with
    | unreliable => cases hb
    | reliable ordered => cases ordered <;> cases hb
  waiting := ⟨[], rfl⟩
  unreliable b hb := nomatch hb

omit [ByteRepr S] in
theorem cross_start (x : Endpoint S R Buf) (hx : x.log true = [] ∧ x.log false = [])
    (hacked : x.orderedAcked = []) :
    Cross la x (Endpoint.start socket lastSeen lastSend : Endpoint R S Buf).receiver [] where
  accepted_lt ordered k hk := by cases ordered <;> cases hk
  flight d hd := nomatch hd
  acked k hk := by rw [hacked] at hk; cases hk
  puts p hp := nomatch hp
  ordered := ⟨rfl, Nat.le_refl _, fun k hk => (nomatch hk), fun h => (nomatch h),
    fun k hk => (nomatch hk), rfl⟩
  covered _ := by
    refine ⟨fun ordered => ⟨fun k hk => ?_, fun k hk => ?_, fun k hk => ?_⟩, Nat.zero_le _⟩
    · obtain ⟨hlt, hn, -⟩ := mem_pendingIn.mp hk
      exact ⟨hlt, hn⟩
    · cases ordered <;> cases hk
    · have hk : k < (x.log ordered).length := hk
      cases ordered
      · rw [hx.2] at hk; cases hk
      · rw [hx.1] at hk; cases hk

end Start

/-! ## One step -/

namespace System

variable [ByteRepr R] {s t : System S R Buf D}

structure Inv (la : Link S Buf D) (lb : Link R Buf D) (s : System S R Buf D) : Prop where
  a : s.a.Inv
  b : s.b.Inv
  ab : Cross la s.a s.b.receiver s.ab
  ba : Cross lb s.b s.a.receiver s.ba

theorem Inv.swap (h : Inv la lb s) : Inv lb la s.swap := ⟨h.b, h.a, h.ba, h.ab⟩

theorem Initial.inv (h : Initial s) : Inv la lb s := by
  obtain ⟨socketA, socketB, t1, t2, t3, t4⟩ := h
  exact ⟨Endpoint.inv_start _ _ _, Endpoint.inv_start _ _ _,
    cross_start _ _ _ _ ⟨rfl, rfl⟩ rfl, cross_start _ _ _ _ ⟨rfl, rfl⟩ rfl⟩

theorem Inv.stepA (h : Inv la lb s) (hla : la.Faithful) {event : Event S}
    (hs : s.stepA la lb event = some t)
    (hready : ∀ place now d, event = .deliver place now → s.ba[place]? = some d →
      Ready s.a s.b d) :
    Inv la lb t ∧ t.b = s.b ∧ t.ba = s.ba ∧ ∃ new, t.ab = s.ab ++ new ∧
      Steps la s.a t.a s.b event s.ba new := by
  unfold System.stepA at hs
  split at hs
  · rename_i a new hstep
    cases hs
    have hsteps := h.a.steps h.b h.ab h.ba hla hstep hready
    refine ⟨⟨hsteps.inv, h.b, h.ab.sender hsteps.sender hsteps.new, ?_⟩, rfl, rfl, new, rfl, hsteps⟩
    rcases hsteps.receiver with e | ⟨_, _, d, b, -, -, hrec⟩
    · show Cross lb s.b a.receiver s.ba
      rw [e]
      exact h.ba
    · exact h.ba.receive hrec.built hrec.receiver
  · cases hs

omit [ByteRepr S] in
theorem stepB_swap (event : Event R) :
    s.stepB la lb event = (s.swap.stepA lb la event).map swap := by
  unfold System.stepA System.stepB swap
  cases s.b.step lb la s.ab event <;> rfl

omit [ByteRepr S] in
/-- A step of `b` is one of `a` the other way round. -/
theorem stepA_of_stepB {event : Event R} (hs : s.stepB la lb event = some t) :
    s.swap.stepA lb la event = some t.swap := by
  rw [stepB_swap, Option.map_eq_some_iff] at hs
  obtain ⟨u, hu, rfl⟩ := hs
  exact hu

omit [ByteRepr R] in
theorem stepB_of_stepA {event : Event S} (hs : s.stepA la lb event = some t) :
    s.swap.stepB lb la event = some t.swap := by
  rw [stepB_swap]
  exact congrArg (Option.map swap) hs

/-- A step is one of one endpoint, the other one stays as it is. -/
theorem step_cases {act : Action S R} (hs : s.step la lb act = some t) :
    (∃ event new, s.a.step la lb s.ba event = some (t.a, new) ∧ t.b = s.b) ∨
      ∃ event new, s.b.step lb la s.ab event = some (t.b, new) ∧ t.a = s.a := by
  cases act with
  | atA event =>
    simp only [System.step, System.stepA] at hs
    split at hs
    · cases hs; exact .inl ⟨event, _, ‹_›, rfl⟩
    · cases hs
  | atB event =>
    simp only [System.step, System.stepB] at hs
    split at hs
    · cases hs; exact .inr ⟨event, _, ‹_›, rfl⟩
    · cases hs

/-- The delivery of a step, if it is one, is ready. -/
def ReadyStep (s : System S R Buf D) : Action S R → Prop
  | .atA (.deliver place _) => ∀ d, s.ba[place]? = some d → Ready s.a s.b d
  | .atB (.deliver place _) => ∀ d, s.ab[place]? = some d → Ready s.b s.a d
  | _ => True

theorem Inv.step (h : Inv la lb s) (hla : la.Faithful) (hlb : lb.Faithful) {act : Action S R}
    (hready : ReadyStep s act) (hs : s.step la lb act = some t) : Inv la lb t := by
  cases act with
  | atA event =>
    refine (h.stepA hla hs ?_).1
    rintro place now d rfl hd
    exact hready d hd
  | atB event =>
    refine (h.swap.stepA hlb (stepA_of_stepB hs) ?_).1.swap
    rintro place now d rfl hd
    exact hready d hd

end System

/-! ## Prompt networks -/

/-- Datagram `d` of `y` reaches `x` before `y` has built more than 64 further packets in its
channel, and before `x` has built `2 ^ 15` packets beyond the newest one that it acknowledges. -/
structure InTime (x : Endpoint S R Buf) (y : Endpoint R S Buf) (d : Datagram D) : Prop where
  fresh : (y.builtIn d.channel).length ≤ d.index + 65
  named : ∀ b, (y.builtIn d.channel)[d.index]? = some b →
    ∀ ordered, (x.log ordered).length < b.named.of ordered + 2 ^ 15

instance (x : Endpoint S R Buf) (y : Endpoint R S Buf) (d : Datagram D) :
    Decidable (InTime x y d) :=
  decidable_of_iff ((y.builtIn d.channel).length ≤ d.index + 65 ∧
      ∀ b ∈ (y.builtIn d.channel)[d.index]?, ∀ ordered,
        (x.log ordered).length < b.named.of ordered + 2 ^ 15)
    ⟨fun h => ⟨h.1, fun b hb => h.2 b hb⟩, fun h => ⟨h.fresh, fun b hb => h.named b hb⟩⟩

omit [ByteRepr S] in
/-- As long as `y` gives nothing up, its latest packets find the windows in step. -/
theorem Covered.ready {x : Endpoint S R Buf} {y : Endpoint R S Buf} {d : Datagram D}
    {incoming : List (Datagram D)} (hcov : Covered y x.receiver)
    (hc : Cross lb y x.receiver incoming) {b : Built R}
    (hb : (y.builtIn d.channel)[d.index]? = some b)
    (hfresh : ∀ ordered, d.channel = .reliable ordered → (y.log ordered).length ≤ d.index + 65)
    (hlag : ∀ ordered, (x.log ordered).length ≤ b.named.of ordered + 65000) : Ready x y d where
  timely :=
    { near := fun ordered hch => by
        have hfresh := hfresh ordered hch
        rw [hch] at hb
        have hlt : d.index < (y.log ordered).length := (List.getElem?_eq_some_iff.mp hb).1
        have htop : top (x.receiver.accepted ordered) ≤ (y.log ordered).length :=
          top_le (hc.accepted_lt ordered)
        have hnext : (y.log ordered).length ≤ top (x.receiver.accepted ordered) + 32 :=
          (hcov.view ordered).next_le fun k hk => lt_top hk
        exact .inl ⟨by omega, by omega⟩
      comparable := fun hch => by
        rw [hch] at hb
        have hlt : d.index < (y.log true).length := (List.getElem?_eq_some_iff.mp hb).1
        have htop : top x.receiver.orderedAccepted ≤ (y.log true).length :=
          top_le (hc.accepted_lt true)
        exact .inl (hcov.next_near hc.ordered (by omega)) }
  lag b' hb' := by
    rw [hb] at hb'
    exact Option.some.inj hb' ▸ hlag

omit [ByteRepr S] in
theorem InTime.ready {x : Endpoint S R Buf} {y : Endpoint R S Buf} {d : Datagram D}
    {incoming : List (Datagram D)} (h : InTime x y d) (hc : Cross lb y x.receiver incoming)
    (hcov : Covered y x.receiver) {b : Built R} (hb : (y.builtIn d.channel)[d.index]? = some b) :
    Ready x y d := by
  refine hcov.ready hc hb (fun ordered hch => ?_) fun ordered => ?_
  · have := h.fresh
    rwa [hch] at this
  · have := h.named b hb ordered
    omega

omit [ByteRepr S] in
/-- What is given up stays on the record. -/
theorem givenUp_send [ByteRepr S] {env : SendEnv S} {x x' : Endpoint S R Buf}
    {new : List (Datagram D)} (h : x.send la env = some (x', new)) : x.givenUp <+: x'.givenUp := by
  unfold Endpoint.send at h
  split at h
  · split at h
    · cases h
      exact (List.prefix_append _ _).trans (List.prefix_append _ _)
    · cases h
  · cases h

theorem givenUp_step {inn : Link R Buf D} {incoming new : List (Datagram D)} {event : Event S}
    {x x' : Endpoint S R Buf} (h : x.step la inn incoming event = some (x', new)) :
    x.givenUp <+: x'.givenUp := by
  cases event with
  | send env => exact givenUp_send h
  | deliver place now =>
    simp only [Endpoint.step] at h
    split at h
    · simp only [Option.map_eq_some_iff, Prod.mk.injEq] at h
      obtain ⟨z, hz, rfl, -⟩ := h
      unfold Endpoint.deliver at hz
      split at hz <;> cases hz <;> exact List.prefix_refl _
    · cases h
  | _ => cases h; exact List.prefix_refl _

namespace System

variable [ByteRepr R] {s t : System S R Buf D}

/-- No packet has been given up. -/
def NoGiveUp (s : System S R Buf D) : Prop := s.a.givenUp = [] ∧ s.b.givenUp = []

/-- The steps of the code, on a network that delivers in time. -/
def Prompt (s : System S R Buf D) : Action S R → Prop
  | .atA (.deliver place _) => ∀ d, s.ba[place]? = some d → InTime s.a s.b d
  | .atB (.deliver place _) => ∀ d, s.ab[place]? = some d → InTime s.b s.a d
  | act => act.ofCode = true

theorem NoGiveUp.of_step {act : Action S R} (h : NoGiveUp t) (hs : s.step la lb act = some t) :
    NoGiveUp s := by
  obtain ⟨ha, hb⟩ := h
  rcases step_cases hs with ⟨_, _, hstep, hsame⟩ | ⟨_, _, hstep, hsame⟩
  · have := givenUp_step hstep
    rw [ha] at this
    exact ⟨List.prefix_nil.mp this, hsame ▸ hb⟩
  · have := givenUp_step hstep
    rw [hb] at this
    exact ⟨hsame ▸ ha, List.prefix_nil.mp this⟩

theorem Inv.readyStep_of_prompt (h : Inv la lb s) (hg : NoGiveUp s) {act : Action S R}
    (hp : Prompt s act) : ReadyStep s act := by
  unfold ReadyStep
  split
  · intro d hd
    obtain ⟨b, hb, -⟩ := h.ba.flight d (List.mem_of_getElem? hd)
    exact (hp d hd).ready h.ba (h.ba.covered hg.2) hb
  · intro d hd
    obtain ⟨b, hb, -⟩ := h.ab.flight d (List.mem_of_getElem? hd)
    exact (hp d hd).ready h.ab (h.ab.covered hg.1) hb
  · trivial

/-- The invariant holds in every state reached over a prompt network without giving up. -/
theorem Reachable.inv_of_prompt (hla : la.Faithful) (hlb : lb.Faithful)
    (h : Reachable la lb Prompt s) (hg : NoGiveUp s) : Inv la lb s := by
  induction h with
  | initial h => exact h.inv
  | step _ hp hs ih =>
    have hg' := hg.of_step hs
    have hinv := ih hg'
    exact hinv.step hla hlb (hinv.readyStep_of_prompt hg' hp) hs

/-! ## Few packets -/

/-- At most `2 ^ 15` numbers have been given out in each reliable channel. -/
def Bounded (s : System S R Buf D) : Prop :=
  ∀ ordered, (s.a.log ordered).length ≤ 2 ^ 15 ∧ (s.b.log ordered).length ≤ 2 ^ 15

omit [ByteRepr S] [ByteRepr R] in
/-- With plain numbers every test is right. -/
theorem ready_of_bounded {x : Endpoint S R Buf} {y : Endpoint R S Buf} {d : Datagram D}
    {incoming : List (Datagram D)} (hx : ∀ ordered, (x.log ordered).length ≤ 2 ^ 15)
    (hy : ∀ ordered, (y.log ordered).length ≤ 2 ^ 15) (hc : Cross lb y x.receiver incoming)
    {b : Built R} (hb : (y.builtIn d.channel)[d.index]? = some b) : Ready x y d where
  timely :=
    { near := fun ordered hch => by
        rw [hch] at hb
        have hlt : d.index < (y.log ordered).length := (List.getElem?_eq_some_iff.mp hb).1
        have htop : top (x.receiver.accepted ordered) ≤ (y.log ordered).length :=
          top_le (hc.accepted_lt ordered)
        have := hy ordered
        exact .inr ⟨by omega, by omega⟩
      comparable := fun hch => by
        rw [hch] at hb
        have hlt : d.index < (y.log true).length := (List.getElem?_eq_some_iff.mp hb).1
        have htop : top x.receiver.orderedAccepted ≤ (y.log true).length :=
          top_le (hc.accepted_lt true)
        have := hy true
        exact .inr (by omega) }
  lag b' _ ordered := by
    have := hx ordered
    omega

theorem Inv.readyStep_of_bounded (h : Inv la lb s) (hb : Bounded s) (act : Action S R) :
    ReadyStep s act := by
  unfold ReadyStep
  split
  · intro d hd
    obtain ⟨b, hget, -⟩ := h.ba.flight d (List.mem_of_getElem? hd)
    exact ready_of_bounded (fun o => (hb o).1) (fun o => (hb o).2) h.ba hget
  · intro d hd
    obtain ⟨b, hget, -⟩ := h.ab.flight d (List.mem_of_getElem? hd)
    exact ready_of_bounded (fun o => (hb o).2) (fun o => (hb o).1) h.ab hget
  · trivial

omit [ByteRepr R] in
/-- What is built stays on the record. -/
theorem log_step {inn : Link R Buf D} {incoming new : List (Datagram D)} {event : Event S}
    {x x' : Endpoint S R Buf} (h : x.step la inn incoming event = some (x', new))
    (ordered : Bool) : (x.log ordered).length ≤ (x'.log ordered).length := by
  cases event with
  | send env =>
    simp only [Endpoint.step, Endpoint.send] at h
    split at h
    · split at h
      · cases h
        cases ordered <;> exact (List.prefix_append _ _).length_le
      · cases h
    · cases h
  | deliver place now =>
    simp only [Endpoint.step] at h
    split at h
    · simp only [Option.map_eq_some_iff, Prod.mk.injEq] at h
      obtain ⟨z, hz, rfl, -⟩ := h
      unfold Endpoint.deliver at hz
      split at hz <;> cases hz <;> cases ordered <;> exact Nat.le_refl _
    · cases h
  | writeHeartbeat =>
    cases h
    cases ordered <;> exact (List.prefix_append _ _).length_le
  | _ => cases h; cases ordered <;> exact Nat.le_refl _

theorem Bounded.of_step {act : Action S R} (h : Bounded t) (hs : s.step la lb act = some t) :
    Bounded s := fun ordered => by
  obtain ⟨ha, hb⟩ := h ordered
  rcases step_cases hs with ⟨_, _, hstep, hsame⟩ | ⟨_, _, hstep, hsame⟩
  · exact ⟨(log_step hstep ordered).trans ha, hsame ▸ hb⟩
  · exact ⟨hsame ▸ ha, (log_step hstep ordered).trans hb⟩

/-- The invariant holds in every state reached with few packets, over any network. -/
theorem Reachable.inv_of_bounded {policy : System S R Buf D → Action S R → Prop}
    (hla : la.Faithful) (hlb : lb.Faithful) (h : Reachable la lb policy s) (hb : Bounded s) :
    Inv la lb s := by
  induction h with
  | initial h => exact h.inv
  | step _ _ hs ih =>
    have hb' := hb.of_step hs
    have hinv := ih hb'
    exact hinv.step hla hlb (hinv.readyStep_of_bounded hb' _) hs

/-! ## Examples of runs -/

section Exchange

/-- Every clock reads `t` and the socket takes everything. -/
def envAt (S : Type) (t : Instant) : SendEnv S where
  now := t
  checked _ := t
  stamped _ := t
  accepts _ := true
  overflowChecks := true

/-- A message that fills a packet. -/
structure Page where
  byte : UInt8
  deriving DecidableEq, Repr

instance : ByteRepr Page where
  minByteLen := 1024
  maxByteLen := 1024
  byteLen _ := 1024
  writeToBytes page := Write.range 0 (List.replicate 1024 page.byte)
  fromBytes bytes := do
    let byte ← readByte bytes 0
    pure ⟨byte⟩
  length_writeToBytes _ _ := Write.length_range _ _ _

/-- The code's own link. -/
abbrev demoLink : Link Bool DataBuffer Bytes := crcLink (crcContext 1 false)

def demoStart : System Bool Bool DataBuffer Bytes :=
  { a := .start { dataBuffer := emptyBuffer } 0 0, b := .start { dataBuffer := emptyBuffer } 0 0 }

theorem demoLink_faithful : demoLink.Faithful := crcLink_faithful _ fun _ => Nat.one_pos

/-- A message in each reliable channel is written and sent. -/
def exchange : System Bool Bool DataBuffer Bytes :=
  ((demoStart.after demoLink demoLink (.atA (.writeReliable true))).after demoLink demoLink
    (.atA (.writeOrdered true))).after demoLink demoLink (.atA (.send (envAt Bool 0)))

/-- The ordered one comes in. -/
def exchanged : System Bool Bool DataBuffer Bytes :=
  exchange.after demoLink demoLink (.atB (.deliver 1 0))

theorem exchange_inTime : ∀ d ∈ exchange.ab, InTime exchange.b exchange.a d := by decide +kernel

theorem reachable_exchange : Reachable demoLink demoLink Prompt exchange := by
  unfold exchange
  refine .after (.after (.after (.initial ?_) rfl) rfl) rfl
  exact .start _ _ 0 0 0 0

theorem reachable_exchanged : Reachable demoLink demoLink Prompt exchanged :=
  reachable_exchange.after (show Prompt exchange (.atB (.deliver 1 0)) from
    fun d hd => exchange_inTime d (List.mem_of_getElem? hd))

theorem noGiveUp_exchanged : NoGiveUp exchanged :=
  ⟨by decide +kernel, by decide +kernel⟩

end Exchange

end System

end MiniUdp
