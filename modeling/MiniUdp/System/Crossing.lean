import MiniUdp.System.Drain

/-!
# Both sides write a lot at once

When both sides fill a window before either has accepted a packet, every
acknowledgement that is on the way or still to be sent is empty, and with
messages left in the queues none is made anew: the connection is deadlocked
(`crossing_deadlocks`).
-/

namespace MiniUdp

open Serial InnerUdpCommunicator Relation

variable {S R Buf D : Type}

section Left

variable [ByteRepr S] {link : Link S Buf D} {env : SendEnv S} {x x' : Endpoint S R Buf}
  {out : List (Datagram D)}

/-- If a call of `send` leaves messages in a queue and gives nothing up, the window is full. -/
theorem full_of_send (hx : x.Inv) (hlink : link.Faithful) (hs : x.send link env = some (x', out))
    (hg : x'.givenUp = []) {ordered : Bool} (hq : x'.com.sendQueue ordered ≠ []) :
    (x'.com.sendWindow ordered).pushWillOverride = true := by
  have hsends := hx.sends hlink hs
  obtain ⟨com, packets, com', st, error, hb, hp, rfl, rfl⟩ := Endpoint.send_eq_some.mp hs
  have hbuilt := (hx.begins hb).inv hx
  have hh : Hands link (x.build com packets).com com' st := hbuilt.hands hlink hp
  have hfull : (com.sendWindow ordered).pushWillOverride = true :=
    (beginSend_flushed hb ordered).stops ((hh.frame.1 ordered).symm.trans_ne hq)
  obtain ⟨k, hk, he⟩ := (hbuilt.send ordered).override_iff.mp hfull
  refine (hsends.inv.send ordered).override_iff.mpr ⟨k, ?_, he⟩
  -- the oldest packet is not given up
  by_contra hc
  have hgone : k ∈ gone ((x.build com packets).com.sendWindow ordered) (com'.sendWindow ordered)
      ((x.build com packets).log ordered).length := by
    refine mem_gone.mpr ⟨hk, ?_⟩
    obtain ⟨hlt, hn, -⟩ := mem_pendingIn.mp hk
    rw [← Option.not_isSome_iff_eq_none]
    exact fun hsome => hc (mem_pendingIn.mpr ⟨hlt, hn, hsome⟩)
  rw [(gone_of_sent hg).2 ordered] at hgone
  cases hgone

theorem unreliable_of_send (hs : x.send link env = some (x', out)) :
    x'.com.unreliableSendQueue = [] := by
  obtain ⟨com, packets, com', st, error, hb, hp, rfl, rfl⟩ := Endpoint.send_eq_some.mp hs
  obtain ⟨-, -, -, hempty, -⟩ := beginSend_unreliable hb
  have hsame : com'.unreliableSendQueue = com.unreliableSendQueue :=
    queueOf_sendPackets hp .unreliable
  exact hsame.trans hempty

end Left

namespace System

section Crossing

variable [ByteRepr S] [ByteRepr R] {la : Link S Buf D} {lb : Link R Buf D} {s t : System S R Buf D}

omit [ByteRepr S] in
/-- What a side that has accepted nothing has built acknowledges nothing. -/
theorem useless_of_unheard {x : Endpoint S R Buf} {y : Endpoint R S Buf} (hy : y.Inv)
    (hno : ∀ ordered, y.accepted ordered = []) {channel : Channel} {index : Nat} {b : Built R}
    (hb : (y.builtIn channel)[index]? = some b) : Useless x b.packet := by
  intro _ ordered _
  rw [← Bool.not_eq_true]
  intro hnames
  obtain ⟨k, hk, -⟩ := (hy.acks channel b (List.mem_of_getElem? hb) ordered).names _ hnames
  rw [hno ordered] at hk
  cases hk

/-- Neither side has accepted a reliable packet. -/
def Unheard (s : System S R Buf D) : Prop :=
  ∀ ordered, s.a.accepted ordered = [] ∧ s.b.accepted ordered = []

omit [ByteRepr R] in
/-- What has been accepted stays so. -/
theorem accepted_step {x x' : Endpoint S R Buf} {incoming new : List (Datagram D)}
    {event : Event S} (h : x.step la lb incoming event = some (x', new)) (ordered : Bool) :
    x.accepted ordered <+: x'.accepted ordered := by
  cases event with
  | send env =>
    obtain ⟨com, packets, com', st, error, -, -, rfl, -⟩ := Endpoint.send_eq_some.mp h
    exact List.prefix_refl _
  | deliver place now =>
    simp only [Endpoint.step] at h
    split at h
    · simp only [Option.map_eq_some_iff, Prod.mk.injEq] at h
      obtain ⟨z, hz, rfl, -⟩ := h
      unfold Endpoint.deliver at hz
      split at hz <;> cases hz <;> cases ordered <;>
        first | exact List.prefix_append _ _ | exact List.prefix_refl _
    · cases h
  | _ => cases h; exact List.prefix_refl _

theorem Unheard.of_step {act : Action S R} (h : t.Unheard) (hs : s.step la lb act = some t) :
    s.Unheard := fun ordered => by
  obtain ⟨ha, hb⟩ := h ordered
  rcases step_cases hs with ⟨_, _, hstep, hsame⟩ | ⟨_, _, hstep, hsame⟩
  · exact ⟨List.prefix_nil.mp (ha ▸ accepted_step hstep ordered), hsame ▸ hb⟩
  · exact ⟨hsame ▸ ha, List.prefix_nil.mp (hb ▸ accepted_step hstep ordered)⟩

omit [ByteRepr S] [ByteRepr R] in
/-- A side that has given nothing up is at most a window ahead of one that has accepted nothing. -/
theorem log_le_of_unheard {x : Endpoint S R Buf} {r : Receiver S} {flight : List (Datagram D)}
    (hc : Cross la x r flight) (hg : x.givenUp = []) {ordered : Bool}
    (hno : r.accepted ordered = []) : (x.log ordered).length ≤ 32 := by
  have hnext : (x.log ordered).length ≤ 0 + 32 :=
    ((hc.covered hg).view ordered).next_le fun k hk => by
      have hk : k ∈ r.accepted ordered := hk
      rw [hno] at hk
      cases hk
  rwa [Nat.zero_add] at hnext

theorem Inv.bounded_of_unheard (h : Inv la lb s) (hno : s.Unheard) (hg : NoGiveUp s) :
    Bounded s := fun ordered => by
  have ha := log_le_of_unheard h.ab hg.1 (hno ordered).2
  have hb := log_le_of_unheard h.ba hg.2 (hno ordered).1
  omega

theorem Reachable.inv_of_unheard {policy : System S R Buf D → Action S R → Prop}
    (hla : la.Faithful) (hlb : lb.Faithful) (h : Reachable la lb policy s) (hno : s.Unheard)
    (hg : NoGiveUp s) : Inv la lb s := by
  induction h with
  | initial h => exact h.inv
  | step _ _ hs ih =>
    have hinv := ih (hno.of_step hs) (hg.of_step hs)
    have hb := hinv.bounded_of_unheard (hno.of_step hs) (hg.of_step hs)
    exact hinv.step hla hlb (hinv.readyStep_of_bounded hb _) hs

/-- When neither side has accepted a packet and both have more to send than their windows hold,
the connection is dead after both have called `send`: nothing on the way acknowledges anything. -/
theorem dead_of_crossing (hla : la.Faithful) (hlb : lb.Faithful)
    {policy : System S R Buf D → Action S R → Prop} (h : Reachable la lb policy s)
    (hno : s.Unheard) {envA : SendEnv S} {envB : SendEnv R} {a : Endpoint S R Buf}
    {b : Endpoint R S Buf} {outA outB : List (Datagram D)}
    (hsendA : s.a.send la envA = some (a, outA)) (hsendB : s.b.send lb envB = some (b, outB))
    (hleftA : ∃ ordered, a.com.sendQueue ordered ≠ [])
    (hleftB : ∃ ordered, b.com.sendQueue ordered ≠ [])
    (hg : NoGiveUp ⟨a, b, s.ab ++ outA, s.ba ++ outB⟩) :
    Dead la lb ⟨a, b, s.ab ++ outA, s.ba ++ outB⟩ := by
  have hstepA : s.step la lb (.atA (.send envA)) = some ⟨a, s.b, s.ab ++ outA, s.ba⟩ := by
    simp only [System.step, System.stepA, Endpoint.step, hsendA]
  have hstepB : System.step la lb ⟨a, s.b, s.ab ++ outA, s.ba⟩ (.atB (.send envB)) =
      some ⟨a, b, s.ab ++ outA, s.ba ++ outB⟩ := by
    simp only [System.step, System.stepB, Endpoint.step, hsendB]
  have hinv : Inv la lb s :=
    h.inv_of_unheard hla hlb hno ((hg.of_step hstepB).of_step hstepA)
  have hinv' : Inv la lb ⟨a, b, s.ab ++ outA, s.ba ++ outB⟩ :=
    (hinv.step hla hlb (show ReadyStep s (.atA (.send envA)) from trivial) hstepA).step hla hlb
      (show ReadyStep _ (.atB (.send envB)) from trivial) hstepB
  have hnoA : ∀ ordered, a.accepted ordered = [] := fun ordered =>
    (congrArg (Receiver.accepted · ordered) (hinv.a.sends hla hsendA).receiver).trans
      (hno ordered).1
  have hnoB : ∀ ordered, b.accepted ordered = [] := fun ordered =>
    (congrArg (Receiver.accepted · ordered) (hinv.b.sends hlb hsendB).receiver).trans
      (hno ordered).2
  refine ⟨hinv', hinv'.bounded_of_unheard (fun ordered => ⟨hnoA ordered, hnoB ordered⟩) hg,
    ⟨⟨unreliable_of_send hsendA, hleftA, fun ordered hq => ?_, fun packet hp => ?_⟩,
      ⟨unreliable_of_send hsendB, hleftB, fun ordered hq => ?_, fun packet hp => ?_⟩⟩,
    fun d _ built hbuilt => useless_of_unheard hinv'.a hnoA hbuilt,
    fun d _ built hbuilt => useless_of_unheard hinv'.b hnoB hbuilt⟩
  · exact full_of_send hinv.a hla hsendA hg.1 hq
  · obtain ⟨channel, index, built, -, hbuilt, rfl⟩ := hinv'.b.outgoing hp
    exact useless_of_unheard hinv'.b hnoB hbuilt
  · exact full_of_send hinv.b hlb hsendB hg.2 hq
  · obtain ⟨channel, index, built, -, hbuilt, rfl⟩ := hinv'.a.outgoing hp
    exact useless_of_unheard hinv'.a hnoA hbuilt

/-- When neither side has accepted a packet and both have more to send than their windows hold,
the connection is deadlocked after both have called `send`, whichever part of the datagrams on the
way arrives. -/
theorem crossing_deadlocks (hla : la.Faithful) (hlb : lb.Faithful)
    {policy : System S R Buf D → Action S R → Prop} (h : Reachable la lb policy s)
    (hno : ∀ ordered, s.a.accepted ordered = [] ∧ s.b.accepted ordered = [])
    {envA : SendEnv S} {envB : SendEnv R} {a : Endpoint S R Buf} {b : Endpoint R S Buf}
    {outA outB : List (Datagram D)} (hsendA : s.a.send la envA = some (a, outA))
    (hsendB : s.b.send lb envB = some (b, outB))
    (hleftA : ∃ ordered, a.com.sendQueue ordered ≠ [])
    (hleftB : ∃ ordered, b.com.sendQueue ordered ≠ [])
    (hg : NoGiveUp ⟨a, b, s.ab ++ outA, s.ba ++ outB⟩) :
    Deadlocked ⟨a, b, s.ab ++ outA, s.ba ++ outB⟩ ∧
      ∀ ab, ab ⊆ s.ab ++ outA → ∀ ba, ba ⊆ s.ba ++ outB →
        ∀ t, ReflTransGen (Quiet la lb) ⟨a, b, ab, ba⟩ t →
          (NoGiveUp t → t.Deadlocked) ∧ ¬ AtRest t := by
  have hdead := dead_of_crossing hla hlb h hno hsendA hsendB hleftA hleftB hg
  refine ⟨hdead.deadlocked, fun ab hab ba hba t hst => ?_⟩
  have hstart : Dead la lb ⟨a, b, ab, ba⟩ := hdead.subset hab hba
  exact ⟨fun hgt => (hstart.run hla hlb hst hgt).deadlocked,
    fun hrest => (hstart.run hla hlb hst hrest.noGiveUp).not_atRest hrest⟩

/-- Both sides have written as many pages. -/
def pages : Nat → System Page Page Unit (Packet Page)
  | 0 => { a := .start { dataBuffer := () } 0 0, b := .start { dataBuffer := () } 0 0 }
  | n + 1 => ((pages n).after (directLink Page) (directLink Page)
      (.atA (.writeReliable ⟨0⟩))).after (directLink Page) (directLink Page)
      (.atB (.writeReliable ⟨0⟩))

theorem reachable_pages (n : Nat) :
    Reachable (directLink Page) (directLink Page) SmallWrites (pages n) := by
  induction n with
  | zero => exact .initial (.start _ _ 0 0 0 0)
  | succ n ih =>
    have hsmall : ∀ s : System Page Page Unit (Packet Page),
        SmallWrites s (.atA (.writeReliable ⟨0⟩)) ∧ SmallWrites s (.atB (.writeReliable ⟨0⟩)) :=
      fun _ => ⟨rfl, rfl⟩
    exact .after (.after ih (hsmall _).1) (hsmall _).2

/-- Both sides have called `send`. -/
def crossed : System Page Page Unit (Packet Page) :=
  ((pages 33).after (directLink Page) (directLink Page) (.atA (.send (envAt Page 0)))).after
    (directLink Page) (directLink Page) (.atB (.send (envAt Page 0)))

/-- Both calls of `send` return, and leave a message in each queue. -/
theorem crossed_eq : ∃ a outA b outB,
    (pages 33).a.send (directLink Page) (envAt Page 0) = some (a, outA) ∧
    (pages 33).b.send (directLink Page) (envAt Page 0) = some (b, outB) ∧
    crossed = ⟨a, b, (pages 33).ab ++ outA, (pages 33).ba ++ outB⟩ := by
  obtain ⟨⟨a, outA⟩, hA⟩ := Option.isSome_iff_exists.mp
    (show ((pages 33).a.send (directLink Page) (envAt Page 0)).isSome = true by decide +kernel)
  obtain ⟨⟨b, outB⟩, hB⟩ := Option.isSome_iff_exists.mp
    (show ((pages 33).b.send (directLink Page) (envAt Page 0)).isSome = true by decide +kernel)
  refine ⟨a, outA, b, outB, hA, hB, ?_⟩
  simp only [crossed, System.after, System.step, System.stepA, System.stepB, Endpoint.step, hA,
    hB, Option.getD_some]

theorem left_crossed : crossed.a.com.sendQueue false ≠ [] ∧ crossed.b.com.sendQueue false ≠ [] := by
  decide +kernel

theorem noGiveUp_crossed : NoGiveUp crossed :=
  show crossed.a.givenUp = [] ∧ crossed.b.givenUp = [] by decide +kernel

theorem crossing_deadlocks_crossed : crossed.Deadlocked ∧
    ∀ t, ReflTransGen (Quiet (directLink Page) (directLink Page)) crossed t → ¬ AtRest t := by
  obtain ⟨a, outA, b, outB, hA, hB, e⟩ := crossed_eq
  have hleft := left_crossed
  have hgivenUp := noGiveUp_crossed
  rw [e] at hleft hgivenUp ⊢
  have h := crossing_deadlocks directLink_faithful directLink_faithful (reachable_pages 33)
    (by decide +kernel) hA hB ⟨false, hleft.1⟩ ⟨false, hleft.2⟩ hgivenUp
  exact ⟨h.1, fun t ht => (h.2 _ (List.Subset.refl _) _ (List.Subset.refl _) t ht).2⟩

theorem dead_crossed : Dead (directLink Page) (directLink Page) crossed := by
  obtain ⟨a, outA, b, outB, hA, hB, e⟩ := crossed_eq
  have hleft := left_crossed
  have hgivenUp := noGiveUp_crossed
  rw [e] at hleft hgivenUp ⊢
  exact dead_of_crossing directLink_faithful directLink_faithful (reachable_pages 33)
    (by unfold Unheard; decide +kernel) hA hB ⟨false, hleft.1⟩ ⟨false, hleft.2⟩ hgivenUp

theorem reachable_crossed :
    Reachable (directLink Page) (directLink Page) SmallWrites crossed :=
  ((reachable_pages 33).after
    (show SmallWrites (pages 33) (.atA (.send (envAt Page 0))) from trivial)).after
    (show SmallWrites _ (.atB (.send (envAt Page 0))) from trivial)

/-- Whatever arrives of what is on the way, the connection never comes to rest. -/
theorem crossed_never_rests : Reachable (directLink Page) (directLink Page) SmallWrites crossed ∧
    Bounded crossed ∧ NoGiveUp crossed ∧ ∀ ab, ab ⊆ crossed.ab → ∀ ba, ba ⊆ crossed.ba →
      ∀ t, ReflTransGen (Quiet (directLink Page) (directLink Page)) { crossed with ab, ba } t →
        ¬ AtRest t :=
  ⟨reachable_crossed, dead_crossed.bounded, noGiveUp_crossed, fun _ hab _ hba _ hst hrest =>
    ((dead_crossed.subset hab hba).run directLink_faithful directLink_faithful hst
      hrest.noGiveUp).not_atRest hrest⟩

end Crossing

end System

end MiniUdp
