import MiniUdp.System.Quiet
import MiniUdp.System.Delivery

/-!
# Deadlocked connections

A deadlocked connection stays deadlocked: neither side builds a packet, and
everything that arrives is useless (`Dead.step`). Its queues are never emptied
(`Dead.not_atRest`).
-/

namespace MiniUdp

open Serial InnerUdpCommunicator

variable {S R Buf D : Type} {la : Link S Buf D} {lb : Link R Buf D}

/-! ## Fewer datagrams on the way -/

theorem Cross.subset {x : Endpoint S R Buf} {r : Receiver S} {flight flight' : List (Datagram D)}
    (h : Cross la x r flight) (hsub : flight' ⊆ flight) : Cross la x r flight' :=
  { h with flight := fun d hd => h.flight d (hsub hd) }

theorem Event.arrived_subset (event : Event S) (flight : List (Datagram D)) :
    event.arrived flight ⊆ flight := by
  unfold arrived
  split
  · exact List.eraseIdx_subset
  · exact List.Subset.refl _

namespace System

variable [ByteRepr S] [ByteRepr R] {s t : System S R Buf D}

theorem Inv.subset (h : Inv la lb s) {ab ba : List (Datagram D)} (hab : ab ⊆ s.ab)
    (hba : ba ⊆ s.ba) : Inv la lb { s with ab, ba } :=
  ⟨h.a, h.b, h.ab.subset hab, h.ba.subset hba⟩

/-- A quiet step is one the other way round. -/
theorem Quiet.swap (h : Quiet la lb s t) : Quiet lb la s.swap t.swap := by
  cases h with
  | atA hq hs => exact .atB hq (stepB_of_stepA hs)
  | atB hq hs => exact .atA hq (stepA_of_stepB hs)

end System

/-! ## What was not accepted before -/

section Accepts

variable [ByteRepr R] {x x' : Endpoint S R Buf} {y : Endpoint R S Buf}
  {flight flight' : List (Datagram D)}

/-- With plain numbers, a packet that goes past the tests would have gone past them before. -/
theorem accepts_of_later (hy : y.Inv) (hx : x.receiver.Inv) (hx' : x'.receiver.Inv)
    (hc' : Cross lb y x'.receiver flight') (hcov : Covered y x.receiver)
    (hlog : ∀ ordered, (y.log ordered).length ≤ 2 ^ 15)
    (hmore : ∀ ordered, ∀ k ∈ x.accepted ordered, k ∈ x'.accepted ordered) {channel : Channel}
    {k : Nat} {b : Built R} (hb : (y.builtIn channel)[k]? = some b)
    (hr : b.packet.reliable = true) (h : x'.com.accepts b.packet = true) :
    x.com.accepts b.packet = true := by
  cases channel with
  | unreliable =>
    rw [(hy.unreliable b (List.mem_of_getElem? hb)).1] at hr
    cases hr
  | reliable ordered =>
    have hlt : k < (y.log ordered).length := (List.getElem?_eq_some_iff.mp hb).1
    obtain ⟨-, ho, hid, -⟩ := (hy.send ordered).built k b hb
    have hbound := hlog ordered
    have htop' : top (x'.accepted ordered) ≤ (y.log ordered).length :=
      top_le (hc'.accepted_lt ordered)
    rw [accepts, Bool.and_eq_true, Bool.not_eq_true', Bool.not_eq_true', isDuplicate_eq,
      isTooOld_eq, ho, hid] at h
    have hnear : Near k (top (x'.accepted ordered)) := .inr ⟨by omega, by omega⟩
    obtain ⟨hnew, hle⟩ := (hx'.windows ordered).new_of_passes hnear h.1 h.2
    have hmono : top (x.accepted ordered) ≤ top (x'.accepted ordered) := top_mono (hmore ordered)
    have hnext : (y.log ordered).length ≤ top (x.accepted ordered) + 32 :=
      (hcov.view ordered).next_le fun k hk => lt_top hk
    have hle : top (x'.accepted ordered) ≤ k + 32 := hle
    exact accepts_of_new hx ho hid (fun hk => hnew (hmore ordered k hk)) (by omega) (by omega)

end Accepts

/-! ## One step -/

namespace System

variable [ByteRepr S] [ByteRepr R] {s t : System S R Buf D}

/-- A deadlocked connection, with nothing but useless packets on the way. -/
structure Dead (la : Link S Buf D) (lb : Link R Buf D) (s : System S R Buf D) : Prop where
  inv : Inv la lb s
  bounded : Bounded s
  deadlocked : s.Deadlocked
  ab : ∀ d ∈ s.ab, ∀ b, (s.a.builtIn d.channel)[d.index]? = some b → Useless s.b b.packet
  ba : ∀ d ∈ s.ba, ∀ b, (s.b.builtIn d.channel)[d.index]? = some b → Useless s.a b.packet

namespace Dead

theorem swap (h : Dead la lb s) : Dead lb la s.swap :=
  ⟨h.inv.swap, fun ordered => (h.bounded ordered).symm, h.deadlocked.symm, h.ba, h.ab⟩

theorem subset (h : Dead la lb s) {ab ba : List (Datagram D)} (hab : ab ⊆ s.ab)
    (hba : ba ⊆ s.ba) : Dead la lb { s with ab, ba } :=
  ⟨h.inv.subset hab hba, h.bounded, h.deadlocked, fun d hd => h.ab d (hab hd),
    fun d hd => h.ba d (hba hd)⟩

/-- What a quiet step does to an endpoint, and what it hands to the socket. -/
theorem stays (h : Dead la lb s) (hla : la.Faithful) {event : Event S} (hq : event.Quiet)
    {a' : Endpoint S R Buf} {new : List (Datagram D)}
    (hs : s.a.step la lb s.ba event = some (a', new)) (hg : a'.givenUp = []) :
    Stays s.a a' ∧ ∀ d ∈ new, ∀ b, (s.a.builtIn d.channel)[d.index]? = some b →
      s.a.StillSends b.packet := by
  cases event with
  | send env =>
    obtain ⟨hstays, hout⟩ := h.deadlocked.1.stays_send h.inv.a hla hs hg
    refine ⟨hstays, fun d hd b hb => ?_⟩
    obtain ⟨b', hb', hstill⟩ := hout d hd
    obtain rfl : b = b' := Option.some.inj (hb.symm.trans hb')
    exact hstill
  | deliver place now =>
    simp only [Endpoint.step] at hs
    split at hs
    · rename_i d hd
      have hmem := List.mem_of_getElem? hd
      obtain ⟨b, buf, hb, hdeliver⟩ := (h.inv.ba.flight d hmem).deliver s.a now
      simp only [hdeliver, Option.map_some, Option.some.injEq, Prod.mk.injEq] at hs
      obtain ⟨rfl, rfl⟩ := hs
      refine ⟨h.deadlocked.1.stays_receive (h.ba d hmem b hb) d.index now buf, ?_⟩
      intro d hd
      cases hd
    · cases hs
  | topUp retries =>
    cases hs
    refine ⟨h.deadlocked.1.stays_topUp retries, ?_⟩
    intro d hd
    cases hd
  | _ => exact hq.elim

theorem stepA (h : Dead la lb s) (hla : la.Faithful) {event : Event S} (hq : event.Quiet)
    (hs : s.stepA la lb event = some t) (hg : NoGiveUp t) : Dead la lb t := by
  have hready := h.inv.readyStep_of_bounded h.bounded (.atA event)
  obtain ⟨hinv, hb, hba, new, hab, hsteps⟩ := h.inv.stepA hla hs fun place now d e hd => by
    subst e
    exact hready d hd
  unfold System.stepA at hs
  split at hs
  · rename_i a' out hstep
    cases hs
    obtain rfl : out = new := List.append_cancel_left hab
    obtain ⟨hstays, hnew⟩ := h.stays hla hq hstep hg.1
    have hlog : ∀ ordered, a'.log ordered = s.a.log ordered := fun ordered =>
      hstays.log (.reliable ordered)
    have hmore : ∀ ordered, ∀ k ∈ s.a.accepted ordered, k ∈ a'.accepted ordered := by
      intro ordered k hk
      rcases hsteps.receiver with e | ⟨_, _, _, _, -, -, hrec⟩
      · have e : a'.accepted ordered = s.a.accepted ordered :=
          congrArg (Receiver.accepted · ordered) e
        rwa [e]
      · exact hrec.receiver.step.mem ordered hk
    have haccepts : ∀ channel k, ∀ b : Built R, (s.b.builtIn channel)[k]? = some b →
        b.packet.reliable = true → a'.com.accepts b.packet = true →
        s.a.com.accepts b.packet = true := fun channel k b hb =>
      accepts_of_later h.inv.b h.inv.a.receiver hinv.a.receiver hinv.ba
        (h.inv.ba.covered hg.2) (fun ordered => (h.bounded ordered).2) hmore hb
    refine ⟨hinv, fun ordered => ⟨?_, (h.bounded ordered).2⟩,
      ⟨hstays.stuck h.deadlocked.1 fun packet hp => ?_, hstays.stuck_other h.deadlocked.2⟩,
      fun d hd b hb => ?_, fun d hd b hb => hstays.useless (h.ba d hd b hb) (haccepts _ _ b hb)⟩
    · show (a'.log ordered).length ≤ 2 ^ 15
      rw [hlog]
      exact (h.bounded ordered).1
    · obtain ⟨channel, k, b, -, hb, rfl⟩ := h.inv.b.outgoing hp
      exact haccepts channel k b hb
    · have hb : (s.a.builtIn d.channel)[d.index]? = some b := hstays.log d.channel ▸ hb
      rcases List.mem_append.mp hd with hd | hd
      · exact h.ab d hd b hb
      · exact h.deadlocked.2.useless _ (hnew d hd b hb)
  · cases hs

/-- A deadlocked connection stays deadlocked. -/
theorem step (h : Dead la lb s) (hla : la.Faithful) (hlb : lb.Faithful)
    (hs : Quiet la lb s t) (hg : NoGiveUp t) : Dead la lb t := by
  cases hs with
  | atA hq hs =>
    exact (h.stepA hla hq hs hg).subset (List.Subset.refl _) (Event.arrived_subset _ _)
  | atB hq hs =>
    have ht := h.swap.stepA hlb hq (stepA_of_stepB hs) hg.symm
    exact ht.swap.subset (Event.arrived_subset _ _) (List.Subset.refl _)

theorem not_atRest (h : Dead la lb s) : ¬ AtRest s := by
  intro hr
  obtain ⟨ordered, hq⟩ := h.deadlocked.1.queued
  have hwork := hr.a
  unfold hasWork at hwork
  simp only [Bool.not_eq_false', Bool.and_eq_true, List.isEmpty_iff] at hwork
  cases ordered
  · exact hq hwork.1.1.2
  · exact hq hwork.1.2

end Dead

theorem NoGiveUp.of_quiet (h : NoGiveUp t) (hs : Quiet la lb s t) : NoGiveUp s := by
  cases hs with
  | @atA t event hq hs =>
    have hstep : s.step la lb (.atA event) = some t := hs
    have hno : NoGiveUp t := h
    exact hno.of_step hstep
  | @atB t event hq hs =>
    have hstep : s.step la lb (.atB event) = some t := hs
    have hno : NoGiveUp t := h
    exact hno.of_step hstep

/-- A deadlocked connection stays deadlocked, whatever happens without a write. -/
theorem Dead.run (h : Dead la lb s) (hla : la.Faithful) (hlb : lb.Faithful)
    (hst : Relation.ReflTransGen (Quiet la lb) s t) (hg : NoGiveUp t) : Dead la lb t := by
  induction hst with
  | refl => exact h
  | tail _ hs ih => exact (ih (hg.of_quiet hs)).step hla hlb hs hg

/-- A deadlocked connection with everything on the way lost never comes to rest. -/
theorem Deadlocked.not_comesToRest (hla : la.Faithful) (hlb : lb.Faithful) (h : s.Deadlocked)
    (hinv : Inv la lb s) (hb : Bounded s) : ¬ ComesToRest la lb s := by
  rintro ⟨t, hst, ht⟩
  have hstart : Dead la lb { s with ab := [], ba := [] } := by
    refine ⟨hinv.subset (List.nil_subset _) (List.nil_subset _), hb, h, ?_, ?_⟩
    · intro d hd
      cases hd
    · intro d hd
      cases hd
  exact (hstart.run hla hlb hst ht.noGiveUp).not_atRest ht

end System

end MiniUdp
