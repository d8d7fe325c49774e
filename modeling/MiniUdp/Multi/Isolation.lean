import MiniUdp.Multi.Fit
import MiniUdp.Multi.Events
import MiniUdp.System.Run

/-!
# Connections do not interfere

The buffer of the socket is all that the connections share, and no connection
can tell what is in it (`peerAct_blind`). So in every run each connection is as
if it had a socket of its own (`connections_isolated`), an operation fails just
when it would fail for one of the connections alone (`exec_ok_iff`), and the
orders of the loops make no difference (`order_unobservable`).
-/

namespace MiniUdp

open InnerUdpCommunicator

variable {A S R : Type}

/-! ## The buffer does not matter -/

section Blind

variable [ByteRepr S] [ByteRepr R] {ctx : MiniUdpContext}
  {socket own : UdpCommunicatorSocket DataBuffer} {peer peer' : Peer S R}

/-- The packets of the connection fit. -/
def Peer.Sound (peer : Peer S R) : Prop := ∀ com, peer.com = some com → com.PacketsFit

omit [ByteRepr R] in
theorem Peer.Sound.getD (h : peer.Sound) (lastSeen lastSend : Instant) :
    (peer.com.getD { lastSeen, lastSend }).PacketsFit := by
  cases hc : peer.com with
  | none => exact packetsFit_default lastSeen lastSend
  | some com => exact h com hc

omit [ByteRepr R] in
theorem send_same [LawfulByteRepr S] (ctx : MiniUdpContext) {inner : InnerUdpCommunicator S R}
    (h : inner.PacketsFit) (env : SendEnv S) (hc : own.blind = socket.blind) :
    Prod.map UdpCommunicator.inner id <$> UdpCommunicator.send ctx env ⟨socket, inner⟩ =
      Prod.map UdpCommunicator.inner id <$> UdpCommunicator.send ctx env ⟨own, inner⟩ := by
  have hone : ∀ s : UdpCommunicatorSocket DataBuffer,
      Prod.map UdpCommunicator.inner id <$> UdpCommunicator.send ctx env ⟨s, inner⟩ =
        inner.send ((crcLink ctx).blind emptyBuffer) env s.blind := by
    intro s
    rw [← send_blind (crcLink_oblivious ctx) env s emptyBuffer h]
    unfold UdpCommunicator.send
    cases inner.send (crcLink ctx) env s <;> rfl
  rw [hone, hone, hc]

omit [ByteRepr S] in
theorem receiveOne_same (ctx : MiniUdpContext) (socket own : UdpCommunicatorSocket DataBuffer)
    (inner : InnerUdpCommunicator S R) (d : Incoming) :
    UdpCommunicator.inner <$> UdpCommunicator.receiveOne ctx ⟨socket, inner⟩ d =
      UdpCommunicator.inner <$> UdpCommunicator.receiveOne ctx ⟨own, inner⟩ d := by
  unfold UdpCommunicator.receiveOne
  simp only [readPacket_recvFrom]
  cases checkReceived (R := R) ctx d.datagram <;> rfl

omit [ByteRepr S] in
theorem blind_receiveOne {com com' : UdpCommunicator S R} {d : Incoming}
    (h : com.receiveOne ctx d = .ok com') : com'.socket.blind = com.socket.blind ∧
      ∃ n buf, com.inner.readPacket ctx n buf d.now = .ok com'.inner := by
  obtain ⟨inner, hr, h⟩ := Outcome.bind_eq_ok.mp h
  cases h
  exact ⟨rfl, _, _, hr⟩

omit [ByteRepr R] in
theorem blind_send {com com' : UdpCommunicator S R} {env : SendEnv S} {sent : Sent S}
    (h : com.send ctx env = .ok (com', sent)) : com'.socket.blind = com.socket.blind ∧
      ∃ r, com.inner.send (crcLink ctx) env com.socket = .ok (com'.inner, r) := by
  obtain ⟨r, hr, h⟩ := Outcome.bind_eq_ok.mp h
  cases h
  exact ⟨rfl, r.2, hr⟩

/-- What happens to a connection is the same with any socket that is configured alike. -/
theorem Peer.step_same [LawfulByteRepr S] (h : peer.Sound) (hc : own.blind = socket.blind)
    (ev : PeerEvent A S) :
    Prod.snd <$> Peer.step ctx (socket, peer) ev = Prod.snd <$> Peer.step ctx (own, peer) ev := by
  cases ev with
  | receive e =>
    have hr := receiveOne_same ctx socket own
      (peer.com.getD e.default) ⟨e.datagram, e.now⟩
    unfold Peer.step
    dsimp only
    revert hr
    cases UdpCommunicator.receiveOne ctx ⟨socket, peer.com.getD e.default⟩ ⟨e.datagram, e.now⟩ <;>
      cases UdpCommunicator.receiveOne ctx ⟨own, peer.com.getD e.default⟩ ⟨e.datagram, e.now⟩ <;>
      simp +contextual
  | send env =>
    unfold Peer.step
    cases hp : peer.com with
    | none => simp
    | some inner =>
      have hs := send_same ctx (h inner hp) env hc
      dsimp only
      revert hs
      cases UdpCommunicator.send ctx env ⟨socket, inner⟩ <;>
        cases UdpCommunicator.send ctx env ⟨own, inner⟩ <;>
        simp +contextual [Prod.ext_iff]
  | connect | calls | remove => rfl

theorem Peer.step_keeps (h : peer.Sound) {ev : PeerEvent A S}
    (hs : Peer.step ctx (socket, peer) ev = .ok (own, peer')) :
    own.blind = socket.blind ∧ peer'.Sound := by
  cases ev with
  | connect lastSeen lastSend =>
    cases hs
    exact ⟨rfl, fun com hcom => Option.some.inj hcom ▸ h.getD lastSeen lastSend⟩
  | receive e =>
    obtain ⟨com, hr, hs⟩ := Outcome.bind_eq_ok.mp hs
    obtain ⟨hb, n, buf, hread⟩ := blind_receiveOne hr
    cases hs
    exact ⟨hb, fun com' hcom => Option.some.inj hcom ▸ (h.getD _ _).readPacket hread⟩
  | calls cs =>
    cases hs
    refine ⟨rfl, fun com hcom => ?_⟩
    obtain ⟨com', hc, rfl⟩ := Option.map_eq_some_iff.mp hcom
    exact (h com' hc).calls cs
  | send env =>
    unfold Peer.step at hs
    cases hp : peer.com with
    | none =>
      simp only [hp, Outcome.pure_def, Outcome.ok.injEq, Prod.mk.injEq] at hs
      obtain ⟨rfl, rfl⟩ := hs
      exact ⟨rfl, h⟩
    | some inner =>
      simp only [hp] at hs
      obtain ⟨⟨com, sent⟩, hr, hs⟩ := Outcome.bind_eq_ok.mp hs
      obtain ⟨hb, r, hsend⟩ := blind_send hr
      cases hs
      exact ⟨hb, fun com' hcom => Option.some.inj hcom ▸ (h inner hp).send hsend⟩
  | remove =>
    cases hs
    exact ⟨rfl, fun com hcom => nomatch hcom⟩

theorem peerAct_blind [LawfulByteRepr S] (ctx : MiniUdpContext)
    (config : UdpCommunicatorSocket Unit) :
    Family.Blind (peerAct (A := A) (S := S) (R := R) ctx) (fun socket => socket.blind = config)
      Peer.Sound where
  same ev socket own peer hb hc hp := Peer.step_same hp (hc.trans hb.symm) ev.2
  keeps ev socket peer own peer' hb hp hs := by
    obtain ⟨hb', hp'⟩ := Peer.step_keeps hp hs
    exact ⟨hb'.trans hb, hp'⟩

end Blind

/-! ## One address -/

section At

/-- Nothing happens if there is no connection. -/
def PeerEvent.idle : PeerEvent A S → Bool
  | .connect .. | .receive _ => false
  | .calls _ | .send _ | .remove => true

theorem Peer.run_idle [ByteRepr S] [ByteRepr R] {ctx : MiniUdpContext}
    {evs : List (PeerEvent A S)} (h : ∀ ev ∈ evs, ev.idle = true)
    (socket : UdpCommunicatorSocket DataBuffer) {peer : Peer S R} (hp : peer.com = none) :
    Peer.run ctx (socket, peer) evs = .ok (socket, peer) := by
  induction evs with
  | nil => rfl
  | cons ev evs ih =>
    have hself : ({ peer with com := none } : Peer S R) = peer := by
      cases peer
      cases hp
      rfl
    have hev := h ev List.mem_cons_self
    have hone : Peer.step ctx (socket, peer) ev = .ok (socket, peer) := by
      unfold Peer.step
      cases ev with
      | connect | receive => cases hev
      | calls => simp only [hp, Option.map_none, hself, Outcome.pure_def]
      | send => simp only [hp, Outcome.pure_def]
      | remove => simp only [hself, Outcome.pure_def]
    unfold Peer.run at ih ⊢
    rw [List.foldlM_cons, hone, Outcome.bind_ok]
    exact ih fun ev hev => h ev (List.mem_cons_of_mem _ hev)

variable [DecidableEq A]

theorem filter_order {T : Type} {order : List A} (h : order.Nodup) (f : A → T) (a : A) :
    (order.map fun b => (b, f b)).filter (fun e => e.1 = a) =
      if a ∈ order then [(a, f a)] else [] := by
  induction order with
  | nil => rfl
  | cons b order ih =>
    obtain ⟨hb, h⟩ := List.nodup_cons.mp h
    rw [List.map_cons, List.filter_cons, ih h]
    by_cases hba : b = a
    · subst hba
      simp [hb]
    · simp [hba, Ne.symm hba]

theorem filter_recv (es : List (Arrival A × List (Call S))) (order : List A) (a : A) :
    ((Op.recv es).events order).filter (fun e => e.1 = a) =
      ((Op.recv es).at a).map (Prod.mk a) := by
  unfold Op.events Op.at
  induction es with
  | nil => rfl
  | cons e es ih =>
    simp only at ih
    simp only [List.flatMap_cons, List.filter_append, ih]
    by_cases h : e.1.addr = a <;> simp [h]

/-- The events of one address are those of the operation at that address, or there is no
connection and they do nothing. -/
theorem filter_events {order : List A} (h : order.Nodup) (op : Op A S) (a : A) :
    (op.events order).filter (fun e => e.1 = a) = (op.at a).map (Prod.mk a) ∨
      a ∉ order ∧ (op.events order).filter (fun e => e.1 = a) = [] ∧
        ∀ ev ∈ op.at a, ev.idle = true := by
  have hloop : ∀ f : A → PeerEvent A S, (f a).idle = true →
      (order.map fun b => (b, f b)).filter (fun e => e.1 = a) = [f a].map (Prod.mk a) ∨
        a ∉ order ∧ (order.map fun b => (b, f b)).filter (fun e => e.1 = a) = [] ∧
          ∀ ev ∈ [f a], ev.idle = true := by
    intro f hf
    rw [filter_order h]
    by_cases ha : a ∈ order
    · rw [if_pos ha]
      exact .inl rfl
    · rw [if_neg ha]
      exact .inr ⟨ha, rfl, fun ev hev => List.mem_singleton.mp hev ▸ hf⟩
  cases op with
  | connect addr lastSeen lastSend cs =>
    unfold Op.events Op.at
    by_cases ha : addr = a <;> simp [ha]
  | recv es => exact .inl (filter_recv es order a)
  | send env => exact hloop (fun b => .send (env b)) rfl
  | broadcast message => exact hloop (fun _ => .calls [.writeReliable message]) rfl
  | broadcastExcept message exception =>
    unfold Op.events Op.at
    simp only
    rw [filter_order (h.filter _)]
    by_cases ha : a = exception
    · simp [ha]
    · by_cases hm : a ∈ order
      · simp [ha, hm]
      · simp [ha, hm, PeerEvent.idle]
  | forEach cs => exact hloop (fun b => .calls (cs b)) rfl
  | retain cs keep =>
    have hat : (Op.retain cs keep).at a =
        [if keep a then PeerEvent.calls (cs a) else (.remove : PeerEvent A S)] := by
      unfold Op.at
      cases hk : keep a <;> simp [hk]
    rw [hat]
    refine hloop (fun b => if keep b then .calls (cs b) else .remove) ?_
    cases keep a <;> rfl
  | remove addr =>
    unfold Op.events Op.at
    by_cases ha : addr = a <;> simp [ha]
  | getMut addr cs =>
    unfold Op.events Op.at
    by_cases ha : addr = a <;> simp [ha]

variable [ByteRepr S] [ByteRepr R] {ctx : MiniUdpContext}

omit [DecidableEq A] in
theorem runAlone_at (a : A) (st : UdpCommunicatorSocket DataBuffer × Peer S R)
    (evs : List (PeerEvent A S)) :
    Family.runAlone (peerAct ctx) st (evs.map (Prod.mk a)) = Peer.run ctx st evs := by
  unfold Family.runAlone Peer.run
  rw [List.foldlM_map]
  rfl

/-- An operation of the family is, for the connection of `a`, the operation at `a`. -/
theorem runAlone_events {st : MultiUdpCommunicator A S R × SendLog A S} {order : List A}
    (h : Family.Enumerates order st.1.coms) (op : Op A S) (a : A)
    (own : UdpCommunicatorSocket DataBuffer) :
    Family.runAlone (peerAct ctx) (own, (peers st).2 a)
        ((op.events order).filter fun e => e.1 = a) =
      Peer.run ctx (own, (peers st).2 a) (op.at a) := by
  rcases filter_events h.nodup op a with e | ⟨ha, e, hidle⟩
  · rw [e, runAlone_at]
  · have hnone : ((peers st).2 a).com = none := by
      rw [h.mem a, Bool.not_eq_true, Option.isSome_eq_false_iff, Option.isNone_iff_eq_none] at ha
      exact ha
    rw [e, Peer.run_idle hidle own hnone]
    rfl

end At

/-! ## Runs -/

section Runs

variable [DecidableEq A] [ByteRepr S] [ByteRepr R] [LawfulByteRepr S] {ctx : MiniUdpContext}
  {st st' : MultiUdpCommunicator A S R × SendLog A S}
  {socket own : UdpCommunicatorSocket DataBuffer} {ops : List (Op A S)}

/-- The packets of every connection fit, and the socket is configured like `socket`. -/
structure WellKept (socket : UdpCommunicatorSocket DataBuffer)
    (st : MultiUdpCommunicator A S R × SendLog A S) : Prop where
  config : st.1.socket.blind = socket.blind
  sound : ∀ a, ((peers st).2 a).Sound

omit [LawfulByteRepr S] in
theorem exec_peers {op : Op A S} {order : List A} (he : op.exec ctx order st = .ok st') :
    Family.run Prod.fst (peerAct ctx) (peers st) (op.events order) = .ok (peers st') := by
  have h := exec_eq ctx st op order
  rw [he] at h
  exact h.symm

theorem WellKept.exec (h : WellKept socket st) {op : Op A S} {order : List A}
    (he : op.exec ctx order st = .ok st') : WellKept socket st' := by
  obtain ⟨hb, hs⟩ := (peerAct_blind ctx socket.blind).run_keeps h.config h.sound (exec_peers he)
  exact ⟨hb, hs⟩

/-- An operation does to each connection what it does to one with a socket of its own. -/
theorem WellKept.run_iff (h : WellKept socket st) (hown : own.blind = socket.blind)
    (op : Op A S) {order : List A} (hord : Family.Enumerates order st.1.coms)
    (m' : A → Peer S R) :
    (∃ b, Family.run Prod.fst (peerAct ctx) (peers st) (op.events order) = .ok (b, m')) ↔
      ∀ a, ∃ own', Peer.run ctx (own, (peers st).2 a) (op.at a) = .ok (own', m' a) := by
  refine ((peerAct_blind ctx socket.blind).run_iff h.config hown h.sound).trans ?_
  exact forall_congr' fun a => by rw [runAlone_events hord]

theorem WellKept.exec_alone (h : WellKept socket st) (hown : own.blind = socket.blind)
    {op : Op A S} {order : List A} (hord : Family.Enumerates order st.1.coms)
    (he : op.exec ctx order st = .ok st') (a : A) :
    ∃ own', Peer.run ctx (own, (peers st).2 a) (op.at a) = .ok (own', (peers st').2 a) :=
  (h.run_iff hown op hord (peers st').2).mp ⟨_, exec_peers he⟩ a

theorem Runs.wellKept (h : Runs ctx st ops st') (hst : WellKept socket st) :
    WellKept socket st' := by
  induction h with
  | nil => exact hst
  | cons order _ he _ ih => exact ih (hst.exec he)

omit [ByteRepr R] [LawfulByteRepr S] in
theorem wellKept_bind (socket : UdpCommunicatorSocket DataBuffer) :
    WellKept socket (({ socket } : MultiUdpCommunicator A S R), []) :=
  ⟨rfl, fun _ _ hcom => nomatch hcom⟩

theorem Runs.alone (h : Runs ctx st ops st') (hst : WellKept socket st)
    (hown : own.blind = socket.blind) (a : A) :
    ∃ own', Peer.run ctx (own, (peers st).2 a) (ops.flatMap (Op.at a)) =
      .ok (own', (peers st').2 a) := by
  induction h generalizing own with
  | nil => exact ⟨own, rfl⟩
  | cons order hord he _ ih =>
    obtain ⟨own1, h1⟩ := hst.exec_alone hown hord he a
    have hkeeps := (peerAct_blind (A := A) ctx socket.blind).runAlone_keeps hown
      (hst.sound a) ((runAlone_at a _ _).trans h1)
    obtain ⟨own', h'⟩ := ih (hst.exec he) hkeeps.1
    refine ⟨own', ?_⟩
    unfold Peer.run at h1 h' ⊢
    rw [List.flatMap_cons, List.foldlM_append, h1, Outcome.bind_ok, h']

/-- After any operations, whatever the orders of the loops were, the connection of an address and
the datagrams handed to the socket for it are those of one connection with a socket of its own. -/
theorem connections_isolated (h : Runs ctx ({ socket } , []) ops st')
    (hown : own.blind = socket.blind) (a : A) :
    ∃ own', Peer.run ctx (own, ({} : Peer S R)) (ops.flatMap (Op.at a)) =
      .ok (own', ⟨st'.1.coms a, sentTo st'.2 a⟩) :=
  h.alone (wellKept_bind socket) hown a

omit [LawfulByteRepr S] in
/-- There are never more connections than can be put in an order. -/
theorem Runs.exists_order (h : Runs ctx st ops st') {order : List A}
    (hord : Family.Enumerates order st.1.coms) :
    ∃ order', Family.Enumerates order' st'.1.coms := by
  induction h generalizing order with
  | nil => exact ⟨order, hord⟩
  | @cons st st1 _ op _ order1 hord1 he _ ih =>
    obtain ⟨order2, hord2⟩ := Family.exists_enumerates hord1 st1.1.coms
      ((op.events order1).map Prod.fst) fun a ha hsome => by
        have hsame := Family.run_apply_of_forall_ne (exec_peers he) (k := a) fun e hmem heq =>
          ha (heq ▸ List.mem_map_of_mem hmem)
        have hcom := congrArg Peer.com hsame
        exact (congrArg Option.isSome hcom).symm.trans hsome
    exact ih hord2

/-- With any order of the connections, an operation goes through just when it does for each
connection with a socket of its own. -/
theorem exec_ok_iff (h : Runs ctx ({ socket }, []) ops st) (hown : own.blind = socket.blind)
    (op : Op A S) : (∃ order, Family.Enumerates order st.1.coms) ∧
      ∀ order, Family.Enumerates order st.1.coms →
        ((∃ st', op.exec ctx order st = .ok st') ↔
          ∀ a, ∃ r, Peer.run ctx (own, (⟨st.1.coms a, sentTo st.2 a⟩ : Peer S R)) (op.at a) =
            .ok r) := by
  have hkept := h.wellKept (wellKept_bind socket)
  refine ⟨h.exists_order ⟨.nil, fun a => by simp⟩, fun order hord => ?_⟩
  constructor
  · rintro ⟨st', he⟩ a
    obtain ⟨own', hrun⟩ := hkept.exec_alone hown hord he a
    exact ⟨_, hrun⟩
  · intro hall
    choose r hr using hall
    obtain ⟨b, hrun⟩ := (hkept.run_iff hown op hord fun a => (r a).2).mpr fun a => ⟨_, hr a⟩
    have he := exec_eq ctx st op order
    rw [show peersRun ctx (peers st) (op.events order) = .ok (b, fun a => (r a).2) from hrun] at he
    cases hx : op.exec ctx order st with
    | ok st' => exact ⟨st', rfl⟩
    | err | panic | hang => rw [hx] at he; cases he

/-- The order in which the hash map has its connections cannot be told from what comes of an
operation. -/
theorem order_unobservable (h : Runs ctx ({ socket }, []) ops st) (op : Op A S)
    {order order' : List A} (hord : Family.Enumerates order st.1.coms)
    (hord' : Family.Enumerates order' st.1.coms) (he : op.exec ctx order st = .ok st') :
    ∃ st'', op.exec ctx order' st = .ok st'' ∧ st''.1.coms = st'.1.coms ∧
      ∀ a, sentTo st''.2 a = sentTo st'.2 a := by
  have hkept := h.wellKept (wellKept_bind socket)
  obtain ⟨-, hiff⟩ := exec_ok_iff h (Eq.refl socket.blind) op
  obtain ⟨st'', he'⟩ := (hiff order' hord').mpr ((hiff order hord).mp ⟨st', he⟩)
  have hsame : ∀ a, (peers st'').2 a = (peers st').2 a := by
    intro a
    obtain ⟨own1, h1⟩ := hkept.exec_alone (Eq.refl socket.blind) hord he a
    obtain ⟨own2, h2⟩ := hkept.exec_alone (Eq.refl socket.blind) hord' he' a
    exact congrArg Prod.snd (Outcome.ok.inj (h2.symm.trans h1))
  exact ⟨st'', he', funext fun a => congrArg Peer.com (hsame a),
    fun a => congrArg Peer.sent (hsame a)⟩

end Runs

/-! ## Two connections -/

def pairSocket : UdpCommunicatorSocket DataBuffer := { dataBuffer := emptyBuffer }

/-- One address gets a message of its own, then both get one. -/
def pairWrites : List (Op Bool Bool) :=
  [.connect true 0 0 [.writeOrdered false], .connect false 0 0 [], .broadcast true]

def pairWritten : MultiUdpCommunicator Bool Bool Bool × SendLog Bool Bool :=
  (((((({ socket := pairSocket } : MultiUdpCommunicator Bool Bool Bool).connect true 0 0).callAt true
    [.writeOrdered false]).connect false 0 0).callAt false []).broadcast [true, false] true, [])

theorem runs_pairWritten :
    Runs (crcContext 1 false) ({ socket := pairSocket }, []) pairWrites pairWritten := by
  refine .cons [] ⟨.nil, fun a => ?_⟩ rfl (.cons [true] ⟨by decide, fun a => ?_⟩ rfl
    (.cons [true, false] ⟨by decide, fun a => ?_⟩ rfl (.nil _)))
  · cases a <;> decide
  · cases a <;> decide
  · cases a <;> decide

theorem enumerates_pairWritten : Family.Enumerates [false, true] pairWritten.1.coms :=
  ⟨by decide, fun a => by cases a <;> decide⟩

theorem enumerates_pairWritten' : Family.Enumerates [true, false] pairWritten.1.coms :=
  ⟨by decide, fun a => by cases a <;> decide⟩

def pairSend : Op Bool Bool := .send fun _ => System.envAt Bool 0

/-- In either order both connections send. -/
theorem exec_pairWritten (order : List Bool) (h : order = [true, false] ∨ order = [false, true]) :
    ∃ st, pairSend.exec (crcContext 1 false) order pairWritten = .ok st := by
  have hok : ∀ order ∈ [[true, false], [false, true]],
      (pairSend.exec (crcContext 1 false) order pairWritten).isOk = true := by
    decide +kernel
  exact Outcome.isOk_iff.mp (hok order (by simpa using h))

theorem connections_isolated_pair : ∃ st, Runs (crcContext 1 false) ({ socket := pairSocket }, [])
    (pairWrites ++ [pairSend]) st ∧ ∀ a, ∃ own',
      Peer.run (crcContext 1 false) (pairSocket, {})
          ((pairWrites ++ [pairSend]).flatMap (Op.at a)) =
        .ok (own', (⟨st.1.coms a, sentTo st.2 a⟩ : Peer Bool Bool)) := by
  obtain ⟨st, hst⟩ := exec_pairWritten [false, true] (.inr rfl)
  have hrun := runs_pairWritten.trans (.cons _ enumerates_pairWritten hst (.nil st))
  exact ⟨st, hrun, fun a => connections_isolated hrun rfl a⟩

theorem exec_ok_iff_pair :
    (∃ st, pairSend.exec (crcContext 1 false) [false, true] pairWritten = .ok st) ↔
      ∀ a, ∃ r, Peer.run (crcContext 1 false)
        (pairSocket, (⟨pairWritten.1.coms a, sentTo pairWritten.2 a⟩ : Peer Bool Bool))
        (pairSend.at a) = .ok r :=
  (exec_ok_iff runs_pairWritten (Eq.refl pairSocket.blind) pairSend).2 _ enumerates_pairWritten

theorem order_unobservable_pair : ∃ st st',
    pairSend.exec (crcContext 1 false) [false, true] pairWritten = .ok st ∧
    pairSend.exec (crcContext 1 false) [true, false] pairWritten = .ok st' ∧
    st'.1.coms = st.1.coms ∧ ∀ a, sentTo st'.2 a = sentTo st.2 a := by
  obtain ⟨st, hst⟩ := exec_pairWritten [false, true] (.inr rfl)
  obtain ⟨st', hst', hcoms, hsent⟩ := order_unobservable runs_pairWritten
    pairSend enumerates_pairWritten enumerates_pairWritten' hst
  exact ⟨st, st', hst, hst', hcoms, hsent⟩

end MiniUdp
