import MiniUdp.Multi.Runs

/-!
# Operations as events

An operation of a `MultiUdpCommunicator` is a run of its connections, seen as
machines that share the socket (`exec_eq`): every method is a list of events,
each at one address (`Op.events`).
-/

namespace MiniUdp

open InnerUdpCommunicator

variable {A S R : Type}

/-! ## Operations are events of the family -/

section Events

variable [DecidableEq A]

def sentTo (log : SendLog A S) (a : A) : List (Sent S) :=
  log.filterMap fun x => if x.1 = a then some x.2 else none

/-- The connections as machines that share the socket. -/
def peers (st : MultiUdpCommunicator A S R × SendLog A S) :
    UdpCommunicatorSocket DataBuffer × (A → Peer S R) :=
  (st.1.socket, fun a => ⟨st.1.coms a, sentTo st.2 a⟩)

/-- What an operation that finds the connections in this order does, one connection at a time. -/
def Op.events (order : List A) : Op A S → List (A × PeerEvent A S)
  | .connect addr lastSeen lastSend cs => [(addr, .connect lastSeen lastSend), (addr, .calls cs)]
  | .recv es => es.flatMap fun e => [(e.1.addr, .receive e.1), (e.1.addr, .calls e.2)]
  | .send env => order.map fun a => (a, .send (env a))
  | .broadcast message => order.map fun a => (a, .calls [.writeReliable message])
  | .broadcastExcept message exception =>
    (order.filter fun a => a ≠ exception).map fun a => (a, .calls [.writeReliable message])
  | .forEach cs => order.map fun a => (a, .calls (cs a))
  | .retain cs keep => order.map fun a => (a, if keep a then .calls (cs a) else .remove)
  | .remove addr => [(addr, .remove)]
  | .getMut addr cs => [(addr, .calls cs)]

end Events

section Exec

variable [DecidableEq A] [ByteRepr S] [ByteRepr R] (ctx : MiniUdpContext)

def peerAct (ev : A × PeerEvent A S) (socket : UdpCommunicatorSocket DataBuffer)
    (peer : Peer S R) : Res (UdpCommunicatorSocket DataBuffer × Peer S R) :=
  Peer.step ctx (socket, peer) ev.2

/-- The run of the family. -/
abbrev peersRun (st : UdpCommunicatorSocket DataBuffer × (A → Peer S R)) :=
  Family.run Prod.fst (peerAct (A := A) (S := S) (R := R) ctx) st

variable (st : MultiUdpCommunicator A S R × SendLog A S)

omit [ByteRepr S] [ByteRepr R] in
theorem peers_setCom (a : A) (com : InnerUdpCommunicator S R) :
    peers (st.1.setCom a com, st.2) =
      ((peers st).1, Function.update (peers st).2 a ⟨some com, sentTo st.2 a⟩) := by
  refine Prod.ext rfl (funext fun b => ?_)
  by_cases hb : b = a
  · subst hb
    simp [peers, MultiUdpCommunicator.setCom]
  · simp [peers, MultiUdpCommunicator.setCom, hb]

omit [ByteRepr S] [ByteRepr R] in
theorem peers_remove (a : A) : peers ((st.1.remove a).2, st.2) =
    ((peers st).1, Function.update (peers st).2 a ⟨none, sentTo st.2 a⟩) := by
  refine Prod.ext rfl (funext fun b => ?_)
  by_cases hb : b = a
  · subst hb
    simp [peers, MultiUdpCommunicator.remove]
  · simp [peers, MultiUdpCommunicator.remove, hb]

theorem step_calls (a : A) (cs : List (Call S)) :
    Family.step Prod.fst (peerAct ctx) (peers st) (a, .calls cs) =
      .ok (peers (st.1.callAt a cs, st.2)) := by
  unfold Family.step peerAct Peer.step MultiUdpCommunicator.callAt MultiUdpCommunicator.getMut
  cases h : st.1.coms a with
  | none =>
    have hself : Function.update (peers st).2 a { (peers st).2 a with com := none } =
        (peers st).2 := by
      rw [← h]
      exact Function.update_eq_self a _
    simp only [peers, h, Option.map_none, Outcome.pure_def, Outcome.bind_ok] at hself ⊢
    rw [hself]
  | some com =>
    simp only [peers_setCom]
    simp [peers, h]

omit [ByteRepr S] [ByteRepr R] in
theorem remove_eq_self {multi : MultiUdpCommunicator A S R} {a : A} (h : multi.coms a = none) :
    (multi.remove a).2 = multi := by
  unfold MultiUdpCommunicator.remove
  rw [← h, Function.update_eq_self]

theorem step_remove (a : A) :
    Family.step Prod.fst (peerAct ctx) (peers st) (a, .remove) =
      .ok (peers ((st.1.remove a).2, st.2)) := by
  rw [peers_remove]
  rfl

theorem step_connect (a : A) (lastSeen lastSend : Instant) :
    Family.step Prod.fst (peerAct ctx) (peers st) (a, .connect lastSeen lastSend) =
      .ok (peers (st.1.connect a lastSeen lastSend, st.2)) := by
  unfold MultiUdpCommunicator.connect
  rw [peers_setCom]
  rfl

omit [DecidableEq A] [ByteRepr S] [ByteRepr R] in
theorem sentTo_append [DecidableEq A] (log : SendLog A S) (a b : A) (sent : Sent S) :
    sentTo (log ++ [(a, sent)]) b = sentTo log b ++ if a = b then [sent] else [] := by
  unfold sentTo
  rw [List.filterMap_append]
  by_cases h : a = b <;> simp [h]

theorem step_send (env : A → SendEnv S) (a : A) :
    Family.step Prod.fst (peerAct ctx) (peers st) (a, .send (env a)) =
      peers <$> MultiUdpCommunicator.sendOne ctx env st a := by
  unfold Family.step peerAct Peer.step MultiUdpCommunicator.sendOne UdpCommunicator.send
  cases h : st.1.coms a with
  | none =>
    have hself : Function.update (peers st).2 a ((peers st).2 a) = (peers st).2 :=
      Function.update_eq_self a _
    simp only [peers, h, Outcome.pure_def, Outcome.bind_ok, Outcome.map_ok] at hself ⊢
    rw [hself]
  | some com =>
    simp only [peers, h]
    cases hs : com.send (crcLink ctx) (env a) st.1.socket with
    | ok r =>
      refine congrArg Outcome.ok (Prod.ext rfl (funext fun b => ?_))
      by_cases hb : b = a
      · subst hb
        simp [peers, MultiUdpCommunicator.setCom, sentTo_append]
      · simp [peers, MultiUdpCommunicator.setCom, sentTo_append, hb, Ne.symm hb]
    | err | panic | hang => rfl

omit [ByteRepr S] in
/-- `recv` with a closure is its loop. -/
theorem recvWith_closure {W : Type} (f : Handler W A S R) (order : List A) (es : List (Arrival A))
    (multi : MultiUdpCommunicator A S R) (w : W) :
    MultiUdpCommunicator.recvWith ctx (.closure f) order es (multi, w) =
      (fun r => (r.1, r.2.2)) <$>
        es.foldlM (MultiUdpCommunicator.recvRound ctx (.closure f)) (multi, (), w) := by
  change (es.foldlM (MultiUdpCommunicator.recvRound ctx (.closure f)) (multi, (), w) >>= _) = _
  cases es.foldlM (MultiUdpCommunicator.recvRound ctx (.closure f)) (multi, (), w) <;> rfl

theorem run_receive (e : Arrival A) (cs : List (Call S)) (css : List (List (Call S))) :
    peersRun ctx (peers st) [(e.addr, .receive e), (e.addr, .calls cs)] =
      (fun r => peers (r.1, st.2)) <$> MultiUdpCommunicator.recvRound ctx (.closure replay)
        (st.1, (), cs :: css) e := by
  unfold MultiUdpCommunicator.recvRound
  rw [peersRun, Family.run_cons]
  unfold peerAct Peer.step UdpCommunicator.receiveOne
  simp only [peers]
  cases ((st.1.coms e.addr).getD e.default).readPacket ctx
    (st.1.socket.dataBuffer.recvFrom e.datagram).1
    (st.1.socket.dataBuffer.recvFrom e.datagram).2 e.now with
  | ok com =>
    refine congrArg Outcome.ok (Prod.ext rfl (funext fun b => ?_))
    by_cases hb : b = e.addr
    · subst hb
      simp [MultiUdpCommunicator.setCom, OnReceiveCallback.closure, replay]
    · simp [MultiUdpCommunicator.setCom, hb]
  | err | panic | hang => rfl

theorem run_recv (es : List (Arrival A × List (Call S))) (multi : MultiUdpCommunicator A S R)
    (log : SendLog A S) :
    peersRun ctx (peers (multi, log)) ((Op.recv es).events []) =
      (fun r => peers (r.1, log)) <$> (es.map Prod.fst).foldlM
        (MultiUdpCommunicator.recvRound ctx (.closure replay)) (multi, (), es.map Prod.snd) := by
  induction es generalizing multi with
  | nil => rfl
  | cons e es ih =>
    have hone := run_receive ctx (multi, log) e.1 e.2 (es.map Prod.snd)
    have hcss : ∀ r, MultiUdpCommunicator.recvRound ctx (.closure replay)
        (multi, (), e.2 :: es.map Prod.snd) e.1 = .ok r → r.2 = ((), es.map Prod.snd) := by
      intro r hr
      obtain ⟨com, -, hr⟩ := Outcome.bind_eq_ok.mp hr
      cases hr
      rfl
    change Family.run _ _ _ ([_, _] ++ (Op.recv es).events []) = _
    rw [Family.run_append]
    change peersRun ctx (peers (multi, log)) _ >>= _ = _
    rw [hone]
    simp only [List.map_cons, List.foldlM_cons]
    cases hr : MultiUdpCommunicator.recvRound ctx (.closure replay)
        (multi, (), e.2 :: es.map Prod.snd) e.1 with
    | ok r =>
      obtain ⟨multi1, rest⟩ := r
      obtain rfl := hcss _ hr
      exact ih multi1
    | err | panic | hang => rfl

/-- The loops of the two `broadcast` methods. -/
theorem run_push (message : S) (order : List A) :
    peersRun ctx (peers st) (order.map fun a => (a, .calls [.writeReliable message])) =
      .ok (peers (order.foldl (fun multi addr => match multi.coms addr with
        | some com => multi.setCom addr (com.writeReliable message)
        | none => multi) st.1, st.2)) := by
  refine Family.run_loop (φ := fun multi => peers (multi, st.2)) (fun multi a => ?_) st.1 order
  rw [step_calls ctx (multi, st.2)]
  unfold MultiUdpCommunicator.callAt MultiUdpCommunicator.getMut
  cases multi.coms a <;> rfl

theorem run_forEach (cs : A → List (Call S)) (order : List A) :
    peersRun ctx (peers st) (order.map fun a => (a, .calls (cs a))) =
      .ok (peers ((MultiUdpCommunicator.forEach order (fun a _ (_ : Unit) => (cs a, ()))
        (st.1, ())).1, st.2)) := by
  refine Family.run_loop (φ := fun t : _ × Unit => peers (t.1, st.2)) (fun t a => ?_)
    (st.1, ()) order
  rw [step_calls ctx (t.1, st.2)]
  unfold MultiUdpCommunicator.callAt MultiUdpCommunicator.handOut MultiUdpCommunicator.getMut
  cases t.1.coms a <;> rfl

theorem run_retain (cs : A → List (Call S)) (keep : A → Bool) (order : List A) :
    peersRun ctx (peers st)
        (order.map fun a => (a, if keep a then .calls (cs a) else .remove)) =
      .ok (peers ((MultiUdpCommunicator.retain order (fun a _ (_ : Unit) => (cs a, keep a, ()))
        (st.1, ())).1, st.2)) := by
  refine Family.run_loop (φ := fun t : _ × Unit => peers (t.1, st.2)) (fun t a => ?_)
    (st.1, ()) order
  unfold MultiUdpCommunicator.retainOne
  cases hk : keep a with
  | true =>
    rw [if_pos rfl, step_calls ctx (t.1, st.2)]
    unfold MultiUdpCommunicator.callAt MultiUdpCommunicator.getMut
    cases t.1.coms a <;> simp [hk]
  | false =>
    rw [if_neg Bool.false_ne_true, step_remove ctx (t.1, st.2)]
    cases h : t.1.coms a with
    | none => rw [remove_eq_self h]
    | some com => simp [hk]

/-- An operation is a run of the family. -/
theorem exec_eq (op : Op A S) (order : List A) :
    peers <$> op.exec ctx order st = peersRun ctx (peers st) (op.events order) := by
  cases op with
  | connect addr lastSeen lastSend cs =>
    unfold Op.exec Op.events
    rw [peersRun, Family.run, List.foldlM_cons, step_connect, Outcome.bind_ok, List.foldlM_cons,
      step_calls ctx (st.1.connect addr lastSeen lastSend, st.2)]
    rfl
  | recv es =>
    refine Eq.trans ?_ (run_recv ctx es st.1 st.2).symm
    simp only [Op.exec, recvWith_closure]
    cases (es.map Prod.fst).foldlM (MultiUdpCommunicator.recvRound ctx (.closure replay))
      (st.1, (), es.map Prod.snd) <;> rfl
  | send env =>
    unfold Op.exec Op.events MultiUdpCommunicator.send peersRun Family.run
    rw [List.foldlM_map]
    refine Outcome.foldlM_map (P := fun _ _ => True) trivial fun _ a _ st1 _ _ => ?_
    exact ⟨(step_send ctx st1 env a).symm, fun _ _ => trivial⟩
  | broadcast message => exact (run_push ctx st message order).symm
  | broadcastExcept message exception => exact (run_push ctx st message _).symm
  | forEach cs => exact (run_forEach ctx st cs order).symm
  | retain cs keep => exact (run_retain ctx st cs keep order).symm
  | remove addr =>
    unfold Op.exec Op.events
    rw [peersRun, Family.run, List.foldlM_cons, step_remove]
    rfl
  | getMut addr cs =>
    unfold Op.exec Op.events
    rw [peersRun, Family.run, List.foldlM_cons, step_calls]
    rfl

end Exec

end MiniUdp
