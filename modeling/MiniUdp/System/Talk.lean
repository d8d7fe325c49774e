import MiniUdp.System.Sweep

/-!
# One side talks to the other

In a connection that has lost nothing for good (`Live`) one side can hand over
everything it has, and the other one takes it in (`Live.talk`). What matters is
that the acknowledgements that are still to be sent do not lag behind too far
(`Lagging`).
-/

namespace MiniUdp

open Serial InnerUdpCommunicator Relation

variable {S R Buf D : Type}

/-! ## Listening -/

/-- A datagram of `y` that finds the windows of `x` in step. -/
structure Recent (x : Endpoint S R Buf) (y : Endpoint R S Buf) (d : Datagram D) : Prop where
  near : ∀ ordered, d.channel = .reliable ordered → (y.log ordered).length ≤ d.index + 65
  lag : ∀ b, (y.builtIn d.channel)[d.index]? = some b →
    ∀ ordered, (x.log ordered).length ≤ b.named.of ordered + 65000

theorem Recent.of_log {x x' : Endpoint S R Buf} {y : Endpoint R S Buf} {d : Datagram D}
    (h : Recent x y d) (hlog : ∀ channel, x'.builtIn channel = x.builtIn channel) :
    Recent x' y d where
  near := h.near
  lag b hb ordered := by
    have hl : x'.log ordered = x.log ordered := hlog (.reliable ordered)
    rw [hl]
    exact h.lag b hb ordered

/-! ## Acknowledgements that lag behind -/

/-- The acknowledgements that `x` still sends are at most `n` packets of `y` behind. -/
def Lagging (x : Endpoint S R Buf) (y : Endpoint R S Buf) (n : Nat) : Prop :=
  ∀ channel k b, x.Outgoing channel k → (x.builtIn channel)[k]? = some b →
    ∀ ordered, (y.log ordered).length ≤ b.named.of ordered + n

theorem Endpoint.Outgoing.lt {x : Endpoint S R Buf} {channel : Channel} {k : Nat}
    (h : x.Outgoing channel k) : k < (x.builtIn channel).length := by
  cases channel with
  | unreliable => exact h.1
  | reliable ordered => exact (mem_pendingIn.mp h).1

section Lag

variable {la : Link S Buf D} {x x' : Endpoint S R Buf} {y : Endpoint R S Buf} {n : Nat}
  {out : List (Datagram D)}

/-- A packet that is built when `x` speaks is at most 32 packets behind. -/
theorem Speaks.lag [ByteRepr S] (h : Speaks la x x' out) (hlag : Lagging x y n) (hn : 32 ≤ n)
    (hnamed : ∀ ordered, (y.log ordered).length ≤ x.named.of ordered + 32) {channel : Channel}
    {k : Nat} {b : Built S} (hk : x.Outgoing channel k ∨ (x.builtIn channel).length ≤ k)
    (hb : (x'.builtIn channel)[k]? = some b) :
    ∀ ordered, (y.log ordered).length ≤ b.named.of ordered + n := by
  rcases hk with hk | hk
  · have hlt := Endpoint.Outgoing.lt hk
    have hget := List.getElem?_eq_getElem hlt
    have hsame := getElem?_of_prefix ((h.sends.step fun _ => []).log channel) hget
    obtain rfl := Option.some.inj (hsame.symm.trans hb)
    exact hlag channel k _ hk hget
  · intro ordered
    have := hnamed ordered
    rw [(h.fresh channel k b hb hk).1]
    omega

theorem Speaks.lagging [ByteRepr S] (h : Speaks la x x' out) (hlag : Lagging x y n) (hn : 32 ≤ n)
    (hnamed : ∀ ordered, (y.log ordered).length ≤ x.named.of ordered + 32) :
    Lagging x' y n := by
  intro channel k b hk hb
  refine h.lag hlag hn hnamed ?_ hb
  cases channel with
  | unreliable =>
    obtain ⟨hlt, hle⟩ := hk
    rw [h.waiting, List.length_nil] at hle
    omega
  | reliable ordered => exact (h.sends.step fun _ => []).pending ordered k hk

/-- A side that has lost nothing builds at most 32 packets at once. -/
theorem Speaks.log_le [ByteRepr S] (h : Speaks la x x' out) {accepted : Bool → List Nat}
    (hg : x.givenUp = []) (hv : ∀ ordered, (x.view ordered (accepted ordered)).Inv 32)
    (ordered : Bool) : (x'.log ordered).length ≤ (x.log ordered).length + 32 :=
  (((h.sends.step accepted).cover (h.givenUp.trans hg)).2 ordered (hv ordered)).next_le
    (hv ordered).accepted_lt

theorem Hears.outgoing {heard : List (Datagram D)} (h : Hears y heard x x') (channel : Channel)
    {k : Nat} (hk : x'.Outgoing channel k) : x.Outgoing channel k := by
  cases channel with
  | unreliable =>
    have hl : x'.unreliableLog = x.unreliableLog := h.log .unreliable
    obtain ⟨hlt, hle⟩ := hk
    rw [hl] at hlt hle
    rw [h.waiting] at hle
    exact ⟨hlt, hle⟩
  | reliable ordered =>
    have hl : x'.log ordered = x.log ordered := h.log (.reliable ordered)
    have hk : k ∈ pendingIn (x'.com.sendWindow ordered) (x'.log ordered).length := hk
    rw [hl] at hk
    exact (h.shrinks ordered).mem_pendingIn hk

theorem Hears.lagging {heard : List (Datagram D)} (h : Hears y heard x x') {z z' : Endpoint R S Buf}
    (hlag : Lagging x z n) {m : Nat}
    (hz : ∀ ordered, (z'.log ordered).length ≤ (z.log ordered).length + m) :
    Lagging x' z' (n + m) := by
  intro channel k b hk hb ordered
  have := hlag channel k b (h.outgoing channel hk) (h.log channel ▸ hb) ordered
  have := hz ordered
  omega

end Lag

namespace System

section Listen

variable [ByteRepr S] [ByteRepr R] {la : Link S Buf D} {lb : Link R Buf D} {s t : System S R Buf D}

/-- `a` has taken in what is on the way to it. -/
structure Listened (la : Link S Buf D) (lb : Link R Buf D) (s : System S R Buf D)
    (heard : List (Datagram D)) (a : Endpoint S R Buf) : Prop where
  run : ReflTransGen (Quiet la lb) s { s with a, ba := [] }
  inv : Inv la lb { s with a, ba := [] }
  hears : Hears s.b heard s.a a

/-- The datagram at a place on the way comes in. -/
theorem Inv.hear_at (h : Inv la lb s) (hla : la.Faithful) (hg : NoGiveUp s) {place : Nat}
    {d : Datagram D} (hd : s.ba[place]? = some d) (hr : Recent s.a s.b d) :
    ∃ b buf, (s.b.builtIn d.channel)[d.index]? = some b ∧
      Quiet la lb s { s with
        a := s.a.receive d.index b.packet 0 buf, ba := s.ba.eraseIdx place } ∧
      Inv la lb { s with
        a := s.a.receive d.index b.packet 0 buf, ba := s.ba.eraseIdx place } ∧
      Hears s.b [d] s.a (s.a.receive d.index b.packet 0 buf) := by
  have hmem := List.mem_of_getElem? hd
  have hcov := h.ba.covered hg.2
  obtain ⟨b, buf, hb, hdeliver⟩ := (h.ba.flight d hmem).deliver s.a 0
  have hready : Ready s.a s.b d := hcov.ready h.ba hb hr.near (hr.lag b hb)
  have hstep : s.stepA la lb (.deliver place 0) =
      some { s with a := s.a.receive d.index b.packet 0 buf, ab := s.ab } := by
    simp only [System.stepA, Endpoint.step, hd, hdeliver, Option.map_some, List.append_nil]
  have hinv := (h.stepA hla hstep (by
    rintro _ _ e heq he
    cases heq
    exact Option.some.inj (hd.symm.trans he) ▸ hready)).1
  have hquiet : Event.Quiet (.deliver place 0 : Event S) := trivial
  refine ⟨b, buf, hb, .atA hquiet hstep, ?_, h.a.hears h.b h.ba hcov hb hready.timely 0 buf⟩
  exact hinv.subset (List.Subset.refl _) List.eraseIdx_subset

/-- Everything on the way comes in, oldest first. -/
theorem Inv.listen (hla : la.Faithful) (flight : List (Datagram D)) (hflight : s.ba = flight)
    (h : Inv la lb s) (hg : NoGiveUp s) (hr : ∀ d ∈ flight, Recent s.a s.b d) :
    ∃ a, Listened la lb s flight a := by
  induction flight generalizing s with
  | nil =>
    obtain ⟨a, b, ab, ba⟩ := s
    obtain rfl : ba = [] := hflight
    exact ⟨a, .refl, h, .refl b a⟩
  | cons d flight ih =>
    have hd : s.ba[0]? = some d := by rw [hflight]; rfl
    have hrest : s.ba.eraseIdx 0 = flight := by rw [hflight]; rfl
    obtain ⟨b, buf, -, hquiet, hinv, hone⟩ := h.hear_at hla hg hd (hr d List.mem_cons_self)
    obtain ⟨a, hrun⟩ := ih hrest hinv ⟨hone.givenUp.trans hg.1, hg.2⟩ fun e he =>
      (hr e (List.mem_cons_of_mem d he)).of_log hone.log
    exact ⟨a, .head hquiet hrun.run, hrun.inv, hone.append hrun.hears⟩

/-- Everything on the way comes in, and first the datagram that is chosen. -/
theorem Inv.listen_first (h : Inv la lb s) (hla : la.Faithful) (hg : NoGiveUp s)
    (hr : ∀ d ∈ s.ba, Recent s.a s.b d) {d : Datagram D} (hd : d ∈ s.ba) :
    ∃ a b, Listened la lb s s.ba a ∧ (s.b.builtIn d.channel)[d.index]? = some b ∧
      ∀ ordered, Shrinks ((s.a.com.onPacket 0 b.packet).sendWindow ordered)
        (a.com.sendWindow ordered) := by
  obtain ⟨place, hplace⟩ := List.mem_iff_getElem?.mp hd
  obtain ⟨b, buf, hb, hquiet, hinv, hone⟩ := h.hear_at hla hg hplace (hr d hd)
  obtain ⟨a, hrun⟩ := hinv.listen hla _ rfl ⟨hone.givenUp.trans hg.1, hg.2⟩ fun e he =>
    (hr e (List.eraseIdx_subset he)).of_log hone.log
  refine ⟨a, b, ⟨.head hquiet hrun.run, hrun.inv, (hone.append hrun.hears).subset ?_⟩, hb,
    hrun.hears.shrinks⟩
  intro e he
  obtain ⟨i, hi⟩ := List.mem_iff_getElem?.mp he
  by_cases hne : i = place
  · subst hne
    rw [hplace] at hi
    exact List.mem_append_left _ (List.mem_singleton.mpr (Option.some.inj hi).symm)
  · refine List.mem_append_right _ (List.mem_eraseIdx_iff_getElem?.mpr ⟨i, hne, hi⟩)

end Listen

/-! ## Talking -/

section Talk

variable [ByteRepr S] [ByteRepr R] {la : Link S Buf D} {lb : Link R Buf D} {s t : System S R Buf D}

/-- A connection with nothing on the way that has not given anything up; all messages fit. -/
structure Live (la : Link S Buf D) (lb : Link R Buf D) (s : System S R Buf D) : Prop where
  inv : Inv la lb s
  noGiveUp : NoGiveUp s
  ab : s.ab = []
  ba : s.ba = []
  fitsA : ∀ channel, ∀ m ∈ s.a.com.queueOf channel, fits m = true
  fitsB : ∀ channel, ∀ m ∈ s.b.com.queueOf channel, fits m = true

theorem Live.swap (h : Live la lb s) : Live lb la s.swap :=
  ⟨h.inv.swap, h.noGiveUp.symm, h.ba, h.ab, h.fitsB, h.fitsA⟩

omit [ByteRepr R] in
/-- How many packets `b` has built beyond what `a` has accepted. -/
theorem Live.named_le [ByteRepr R] (h : Live la lb s) (ordered : Bool) :
    (s.b.log ordered).length ≤ s.a.named.of ordered + 32 := by
  have hof : s.a.named.of ordered = top (s.a.accepted ordered) := s.a.receiver.of_named ordered
  rw [hof]
  exact ((h.inv.ba.covered h.noGiveUp.2).view ordered).next_le fun k hk => lt_top hk

/-- `a` hands over everything it has. -/
theorem Live.speak (h : Live la lb s) (hla : la.Faithful) {n : Nat} (hn : 32 ≤ n)
    (hn' : n ≤ 65000) (hlag : Lagging s.a s.b n) : ∃ a out,
      ReflTransGen (Quiet la lb) s { s with a, ab := out } ∧ Inv la lb { s with a, ab := out } ∧
      Speaks la s.a a out ∧ ∀ d ∈ out, Recent s.b a d := by
  have hcov := h.inv.ab.covered h.noGiveUp.1
  obtain ⟨env, a, out, haccepts, hsend, hspeaks⟩ := h.inv.a.speaks hla hcov.view h.fitsA
  have hfirst : s.stepA la lb (.topUp 2) = some { s with a := s.a.topUp 2 } := by
    simp only [System.stepA, Endpoint.step, List.append_nil]
  have hsecond : { s with a := s.a.topUp 2 }.stepA la lb (.send env) =
      some { s with a, ab := out } := by
    simp only [System.stepA, Endpoint.step, hsend, h.ab, List.nil_append]
  have hinv := (h.inv.stepA hla hfirst fun _ _ _ heq => by cases heq).1
  have hinv' := (hinv.stepA hla hsecond fun _ _ _ heq => by cases heq).1
  have hquiet : Event.Quiet (.topUp 2 : Event S) := trivial
  have hquiet' : Event.Quiet (.send env) := haccepts
  refine ⟨a, out, ?_, hinv', hspeaks, fun d hd => ⟨fun ordered hch => ?_, fun b hb => ?_⟩⟩
  · exact .tail (.single (.atA hquiet hfirst)) (.atA hquiet' hsecond)
  · have := (mem_pendingIn.mp (hspeaks.near d hd ordered hch)).2.1
    omega
  · intro ordered
    have := hspeaks.lag hlag hn h.named_le (hspeaks.recent d hd) hb ordered
    omega

/-- `a` has told everything it has to `b`. -/
structure Talked (la : Link S Buf D) (lb : Link R Buf D) (s t : System S R Buf D)
    (out : List (Datagram D)) : Prop where
  run : ReflTransGen (Quiet la lb) s t
  live : Live la lb t
  speaks : Speaks la s.a t.a out
  hears : Hears t.a out s.b t.b

omit [ByteRepr S] [ByteRepr R] in
/-- Runs can be looked at from the other side. -/
theorem run_swap [ByteRepr S] [ByteRepr R] {s : System S R Buf D} {t : System R S Buf D}
    (h : ReflTransGen (Quiet lb la) s.swap t) : ReflTransGen (Quiet la lb) s t.swap :=
  ReflTransGen.lift System.swap (fun _ _ (hq : Quiet lb la _ _) => hq.swap) _ _ h

/-- What `a` has handed over comes in. -/
theorem Live.talked (h : Live la lb s) {a : Endpoint S R Buf} {b : Endpoint R S Buf}
    {out : List (Datagram D)} (hrun : ReflTransGen (Quiet la lb) s { s with a, ab := out })
    (hspeaks : Speaks la s.a a out)
    (hlistened : Listened lb la (System.swap { s with a, ab := out }) out b) :
    Talked la lb s { a, b, ab := [], ba := [] } out := by
  have hears := hlistened.hears
  have hrest := run_swap hlistened.run
  have hinv := hlistened.inv.swap
  have hba := h.ba
  obtain ⟨_, _, _, ba⟩ := s
  obtain rfl : ba = [] := hba
  refine ⟨hrun.trans hrest, ⟨hinv, ?_, rfl, rfl, fun channel m hm => ?_, fun channel m hm => ?_⟩,
    hspeaks, hears⟩
  · exact ⟨hspeaks.givenUp.trans h.noGiveUp.1, hears.givenUp.trans h.noGiveUp.2⟩
  · refine h.fitsA channel m ?_
    cases channel with
    | unreliable =>
      have hm : m ∈ a.com.unreliableSendQueue := hm
      rw [hspeaks.unreliable] at hm
      cases hm
    | reliable ordered => exact (hspeaks.queue ordered).subset hm
  · refine h.fitsB channel m ?_
    cases channel with
    | unreliable =>
      have hm : m ∈ b.com.unreliableSendQueue := hm
      rwa [hears.unreliable] at hm
    | reliable ordered =>
      have hm : m ∈ b.com.sendQueue ordered := hm
      rwa [hears.queue] at hm

theorem Live.talk (h : Live la lb s) (hla : la.Faithful) (hlb : lb.Faithful) {n : Nat}
    (hn : 32 ≤ n) (hn' : n ≤ 65000) (hlag : Lagging s.a s.b n) :
    ∃ t out, Talked la lb s t out := by
  obtain ⟨a, out, hrun, hinv, hspeaks, hrecent⟩ := h.speak hla hn hn' hlag
  obtain ⟨b, hlistened⟩ := hinv.swap.listen hlb out rfl
    ⟨h.noGiveUp.2, hspeaks.givenUp.trans h.noGiveUp.1⟩ hrecent
  exact ⟨_, out, h.talked hrun hspeaks hlistened⟩

/-- `a` talks, and a datagram that is chosen among those handed over comes in first. -/
theorem Live.talk_first (h : Live la lb s) (hla : la.Faithful) (hlb : lb.Faithful) {n : Nat}
    (hn : 32 ≤ n) (hn' : n ≤ 65000) (hlag : Lagging s.a s.b n)
    {P : Endpoint S R Buf → Datagram D → Prop}
    (hpick : ∀ a out, Speaks la s.a a out → ∃ d ∈ out, P a d) :
    ∃ t out d b, Talked la lb s t out ∧ P t.a d ∧
      (t.a.builtIn d.channel)[d.index]? = some b ∧
      ∀ ordered, Shrinks ((s.b.com.onPacket 0 b.packet).sendWindow ordered)
        (t.b.com.sendWindow ordered) := by
  obtain ⟨a, out, hrun, hinv, hspeaks, hrecent⟩ := h.speak hla hn hn' hlag
  obtain ⟨d, hd, hp⟩ := hpick a out hspeaks
  obtain ⟨b, packet, hlistened, hpacket, hfirst⟩ := hinv.swap.listen_first hlb
    ⟨h.noGiveUp.2, hspeaks.givenUp.trans h.noGiveUp.1⟩ hrecent hd
  exact ⟨_, out, d, packet, h.talked hrun hspeaks hlistened, hp, hpacket, hfirst⟩

namespace Talked

variable {out : List (Datagram D)} {n m : Nat}

/-- Everything that still waits for an acknowledgement has been accepted. -/
theorem accepted (h : Talked la lb s t out) (ordered : Bool) :
    ∀ k ∈ t.a.pending ordered, k ∈ t.b.accepted ordered := by
  intro k hk
  have hold := (h.speaks.sends.step fun _ => []).pending ordered k hk
  obtain ⟨d, hd, hch, rfl⟩ := h.speaks.handed (.reliable ordered) k hold (mem_pendingIn.mp hk).1
  exact h.hears.accepts d hd ordered hch hk

/-- What was accepted before makes the other side owe an acknowledgement. -/
theorem owes (h : Talked la lb s t out) {ordered : Bool} {k : Nat} (hk : k ∈ s.a.pending ordered)
    (hacc : k ∈ s.b.accepted ordered) : t.b.com.receivedPacketDuplicate = true := by
  have hlt := (mem_pendingIn.mp hk).1.trans_le
    (Endpoint.log_prefix (h.speaks.sends.step fun _ => []).log ordered).length_le
  obtain ⟨d, hd, hch, rfl⟩ := h.speaks.handed (.reliable ordered) k (.inl hk) hlt
  exact h.hears.again d hd ordered hch hacc

theorem lagging (h : Talked la lb s t out) (hs : Live la lb s) (hlag : Lagging s.a s.b n)
    (hn : 32 ≤ n) : Lagging t.a t.b n := by
  intro channel k b hk hb ordered
  have hlog : t.b.log ordered = s.b.log ordered := h.hears.log (.reliable ordered)
  rw [hlog]
  exact h.speaks.lagging hlag hn hs.named_le channel k b hk hb ordered

theorem lagging_other (h : Talked la lb s t out) (hs : Live la lb s) (hlag : Lagging s.b s.a m) :
    Lagging t.b t.a (m + 32) :=
  h.hears.lagging hlag fun ordered => h.speaks.log_le hs.noGiveUp.1
    (hs.inv.ab.covered hs.noGiveUp.1).view ordered

end Talked

end Talk

end System

end MiniUdp
