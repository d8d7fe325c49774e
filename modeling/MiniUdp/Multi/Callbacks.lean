import MiniUdp.Multi.Isolation

/-!
# Callbacks

A closure sees one connection after the other and may remember what it has seen,
but all it can do is call methods of the connection it is handed. So whatever a
closure is, `for_each`, `retain` and `recv` with any of the callbacks are
operations of `Op` (`recvWith_runs`). The requests of a delayed broadcast
reach every connection there is after `recv`, in the order in which they were
made (`delayed_queue`).
-/

namespace MiniUdp

open InnerUdpCommunicator OnReceiveCallback

variable {A S R W State T : Type} [DecidableEq A]

/-! ## Loops over the connections -/

section Loops

/-- `for_each` with calls that are fixed. -/
theorem forEach_calls (order : List A) (cs : A → List (Call S))
    (multi : MultiUdpCommunicator A S R) :
    (MultiUdpCommunicator.forEach order (fun a _ (_ : Unit) => (cs a, ())) (multi, ())).1 =
      order.foldl (fun multi a => multi.callAt a (cs a)) multi := by
  unfold MultiUdpCommunicator.forEach
  induction order generalizing multi with
  | nil => rfl
  | cons a order ih =>
    rw [List.foldl_cons, List.foldl_cons, ← ih]
    unfold MultiUdpCommunicator.handOut MultiUdpCommunicator.callAt MultiUdpCommunicator.getMut
    cases multi.coms a <;> rfl

/-- A connection stays, after some calls, or goes. -/
def keepAt (multi : MultiUdpCommunicator A S R) (a : A) (c : List (Call S) × Bool) :
    MultiUdpCommunicator A S R :=
  match multi.coms a with
  | some com => if c.2 then multi.setCom a (com.calls c.1) else (multi.remove a).2
  | none => multi

theorem retain_calls (order : List A) (cs : A → List (Call S)) (keep : A → Bool)
    (multi : MultiUdpCommunicator A S R) :
    (MultiUdpCommunicator.retain order (fun a _ (_ : Unit) => (cs a, keep a, ()))
      (multi, ())).1 = order.foldl (fun multi a => keepAt multi a (cs a, keep a)) multi := by
  unfold MultiUdpCommunicator.retain
  induction order generalizing multi with
  | nil => rfl
  | cons a order ih =>
    rw [List.foldl_cons, List.foldl_cons, ← ih]
    unfold MultiUdpCommunicator.retainOne keepAt
    cases multi.coms a <;> rfl

variable [ByteRepr S] [ByteRepr R] (ctx : MiniUdpContext) {order : List A} (h : order.Nodup)
  (multi : MultiUdpCommunicator A S R) (log : SendLog A S) (w : W)

include h

/-- `for_each` with any closure is an operation: that of the calls which the closure makes. -/
theorem forEach_exec (f : Handler W A S R) : ∃ cs : A → List (Call S),
    (Op.forEach cs).exec ctx order (multi, log) =
      .ok ((MultiUdpCommunicator.forEach order f (multi, w)).1, log) := by
  obtain ⟨cs, hcs⟩ := Family.exists_choices (fun multi a cs => multi.callAt a cs)
    (fun (multi : MultiUdpCommunicator A S R) w a => match multi.coms a with
      | some com => f a com w
      | none => ([], w)) h multi w
  refine ⟨cs, congrArg (fun multi => Outcome.ok (multi, log)) ?_⟩
  rw [forEach_calls, ← hcs]
  refine congrArg Prod.fst (List.foldl_ext _ _ _ fun st a _ => ?_)
  unfold MultiUdpCommunicator.handOut MultiUdpCommunicator.callAt MultiUdpCommunicator.getMut
  cases st.1.coms a <;> simp

/-- So is `retain`: that of the calls which the closure makes, and the connections it keeps. -/
theorem retain_exec (f : A → InnerUdpCommunicator S R → W → List (Call S) × Bool × W) :
    ∃ (cs : A → List (Call S)) (keep : A → Bool),
      (Op.retain cs keep).exec ctx order (multi, log) =
        .ok ((MultiUdpCommunicator.retain order f (multi, w)).1, log) := by
  obtain ⟨c, hc⟩ := Family.exists_choices keepAt
    (fun (multi : MultiUdpCommunicator A S R) w a => match multi.coms a with
      | some com => (((f a com w).1, (f a com w).2.1), (f a com w).2.2)
      | none => (([], true), w)) h multi w
  refine ⟨fun a => (c a).1, fun a => (c a).2,
    congrArg (fun multi => Outcome.ok (multi, log)) ?_⟩
  rw [retain_calls, ← hc]
  refine congrArg Prod.fst (List.foldl_ext _ _ _ fun st a _ => ?_)
  unfold MultiUdpCommunicator.retainOne keepAt
  cases st.1.coms a <;> simp

end Loops

/-! ## Receiving -/

section Recv

variable [ByteRepr R] {ctx : MiniUdpContext} {cb : OnReceiveCallback State W A S R}
  {multi multi' : MultiUdpCommunicator A S R} {state state' : State} {w w' : W}

/-- The calls that a callback makes for one datagram. -/
theorem recvRound_calls {e : Arrival A}
    (h : MultiUdpCommunicator.recvRound ctx cb (multi, state, w) e = .ok (multi', state', w')) :
    ∃ cs, ∀ css, MultiUdpCommunicator.recvRound ctx (.closure replay) (multi, (), cs :: css) e =
      .ok (multi', (), css) := by
  obtain ⟨com, hread, h⟩ := Outcome.bind_eq_ok.mp h
  refine ⟨(cb.onRecv e.addr com state w).1, fun css => Outcome.bind_eq_ok.mpr ⟨com, hread, ?_⟩⟩
  cases h
  rfl

/-- The calls that a callback makes in the loop of `recv`. -/
theorem recv_calls {es : List (Arrival A)}
    (h : es.foldlM (MultiUdpCommunicator.recvRound ctx cb) (multi, state, w) =
      .ok (multi', state', w')) :
    ∃ css : List (List (Call S)), css.length = es.length ∧
      es.foldlM (MultiUdpCommunicator.recvRound ctx (.closure replay)) (multi, (), css) =
        .ok (multi', (), []) := by
  induction es generalizing multi state w with
  | nil =>
    cases h
    exact ⟨[], rfl, rfl⟩
  | cons e es ih =>
    rw [List.foldlM_cons, Outcome.bind_eq_ok] at h
    obtain ⟨⟨multi1, state1, w1⟩, hround, h⟩ := h
    obtain ⟨cs, hcs⟩ := recvRound_calls hround
    obtain ⟨css, hlen, hcss⟩ := ih h
    refine ⟨cs :: css, congrArg (· + 1) hlen, ?_⟩
    rw [List.foldlM_cons, hcs, Outcome.bind_ok, hcss]

theorem recv_exec [ByteRepr S] {es : List (Arrival A)}
    (h : es.foldlM (MultiUdpCommunicator.recvRound ctx cb) (multi, state, w) =
      .ok (multi', state', w')) (order : List A) (log : SendLog A S) :
    ∃ css : List (List (Call S)), css.length = es.length ∧
      (Op.recv (es.zip css)).exec ctx order (multi, log) = .ok (multi', log) := by
  obtain ⟨css, hlen, hcss⟩ := recv_calls h
  refine ⟨css, hlen, ?_⟩
  simp only [Op.exec, recvWith_closure, List.map_fst_zip hlen.ge, List.map_snd_zip hlen.le, hcss]
  rfl

end Recv

/-! ## Requests -/

section Requests

variable (multi : MultiUdpCommunicator A S R)

theorem broadcast_calls (order : List A) (message : S) : multi.broadcast order message =
    order.foldl (fun multi a => multi.callAt a [.writeReliable message]) multi := by
  refine List.foldl_ext _ _ _ fun multi a _ => ?_
  unfold MultiUdpCommunicator.callAt MultiUdpCommunicator.getMut
  cases multi.coms a <;> rfl

theorem broadcastExcept_calls (order : List A) (message : S) (exception : A) :
    multi.broadcastExcept order message exception =
      multi.broadcast (order.filter fun a => a ≠ exception) message := rfl

theorem coms_callAt (a b : A) (cs : List (Call S)) : (multi.callAt a cs).coms b =
    if b = a then (multi.coms a).map (calls · cs) else multi.coms b := by
  unfold MultiUdpCommunicator.callAt MultiUdpCommunicator.getMut MultiUdpCommunicator.setCom
  by_cases hb : b = a
  · subst hb
    cases hc : multi.coms b <;> simp [hc]
  · cases hc : multi.coms a <;> simp [hb]

theorem isSome_foldl_callAt (order : List A) (cs : A → List (Call S)) (b : A) :
    ((order.foldl (fun multi a => multi.callAt a (cs a)) multi).coms b).isSome =
      (multi.coms b).isSome := by
  induction order generalizing multi with
  | nil => rfl
  | cons a order ih =>
    rw [List.foldl_cons, ih, coms_callAt]
    split
    · rename_i hb
      rw [hb, Option.isSome_map]
    · rfl

theorem isSome_forEach (order : List A) (f : Handler W A S R) (w : W) (b : A) :
    ((MultiUdpCommunicator.forEach order f (multi, w)).1.coms b).isSome =
      (multi.coms b).isSome := by
  unfold MultiUdpCommunicator.forEach
  induction order generalizing multi w with
  | nil => rfl
  | cons a order ih =>
    rw [List.foldl_cons, ← Prod.eta (MultiUdpCommunicator.handOut f (multi, w) a), ih]
    unfold MultiUdpCommunicator.handOut
    cases hc : multi.coms a with
    | none => rfl
    | some com =>
      have hcall := coms_callAt multi a b (f a com w).1
      unfold MultiUdpCommunicator.callAt MultiUdpCommunicator.getMut at hcall
      rw [hc] at hcall
      simp only at hcall ⊢
      rw [hcall]
      split
      · rename_i hb
        rw [hb, hc, Option.isSome_map]
      · rfl

omit [DecidableEq A] in
theorem isSome_foldl {g : MultiUdpCommunicator A S R × W → T → MultiUdpCommunicator A S R × W}
    (h : ∀ st t a, ((g st t).1.coms a).isSome = (st.1.coms a).isSome) (requests : List T)
    (st : MultiUdpCommunicator A S R × W) (a : A) :
    ((requests.foldl g st).1.coms a).isSome = (st.1.coms a).isSome := by
  induction requests generalizing st with
  | nil => rfl
  | cons t requests ih => rw [List.foldl_cons, ih, h]

theorem isSome_broadcast (order : List A) (message : S) (a : A) :
    ((multi.broadcast order message).coms a).isSome = (multi.coms a).isSome := by
  rw [broadcast_calls]
  exact isSome_foldl_callAt multi order _ a

variable [ByteRepr S] [ByteRepr R] {ctx : MiniUdpContext}

/-- What can be asked for while datagrams are received. -/
def Op.isRequest : Op A S → Bool
  | .broadcast _ | .broadcastExcept .. | .forEach _ => true
  | _ => false

/-- Every request is an operation that neither makes nor removes a connection. -/
structure MetByOps (ctx : MiniUdpContext)
    (meet : List A → MultiUdpCommunicator A S R → T → W → MultiUdpCommunicator A S R × W) :
    Prop where
  isSome : ∀ order multi t w a, ((meet order multi t w).1.coms a).isSome = (multi.coms a).isSome
  exec : ∀ order multi log t w, order.Nodup → ∃ op : Op A S,
    op.isRequest = true ∧ op.exec ctx order (multi, log) = .ok ((meet order multi t w).1, log)

theorem metByOps_broadcast (ctx : MiniUdpContext) : MetByOps (T := S) (W := W) (R := R) ctx
    fun order (multi : MultiUdpCommunicator A S R) message w =>
      (multi.broadcast order message, w) where
  isSome order multi t _ a := isSome_broadcast multi order t a
  exec _ _ _ t _ _ := ⟨.broadcast t, rfl, rfl⟩

theorem metByOps_broadcastExcept (ctx : MiniUdpContext) :
    MetByOps (T := A × S) (W := W) (R := R) ctx
    fun order (multi : MultiUdpCommunicator A S R) request w =>
      (multi.broadcastExcept order request.2 request.1, w) where
  isSome _ multi t _ a := isSome_broadcast multi _ t.2 a
  exec _ _ _ t _ _ := ⟨.broadcastExcept t.2 t.1, rfl, rfl⟩

theorem metByOps_forEach (ctx : MiniUdpContext) :
    MetByOps (T := Handler W A S R) (W := W) (R := R) ctx
    fun order (multi : MultiUdpCommunicator A S R) g w =>
      MultiUdpCommunicator.forEach order g (multi, w) where
  isSome order multi t w a := isSome_forEach multi order t w a
  exec _ multi log t w h := by
    obtain ⟨cs, hcs⟩ := forEach_exec ctx h multi log w t
    exact ⟨.forEach cs, rfl, hcs⟩

theorem MetByOps.runs
    {meet : List A → MultiUdpCommunicator A S R → T → W → MultiUdpCommunicator A S R × W}
    (h : MetByOps ctx meet) (requests : List T) (w : W) {order : List A}
    (hord : Family.Enumerates order multi.coms) (log : SendLog A S) : ∃ ops : List (Op A S),
      (∀ op ∈ ops, op.isRequest = true) ∧ Runs ctx (multi, log) ops
        ((requests.foldl (fun st t => meet order st.1 t st.2) (multi, w)).1, log) := by
  induction requests generalizing multi w with
  | nil => exact ⟨[], by simp, .nil _⟩
  | cons t requests ih =>
    obtain ⟨op, hreq, hop⟩ := h.exec order multi log t w hord.nodup
    obtain ⟨ops, hall, hops⟩ := ih (meet order multi t w).1 (meet order multi t w).2
      ⟨hord.nodup, fun a => by rw [hord.mem, h.isSome]⟩
    exact ⟨op :: ops, List.forall_mem_cons.mpr ⟨hreq, hall⟩, .cons order hord hop hops⟩

end Requests

/-! ## The callbacks are operations -/

/-- The callbacks that the trait is implemented for. -/
inductive OnReceiveCallback.Provided :
    {State : Type} → OnReceiveCallback State W A S R → Prop where
  | unit : Provided unit
  | closure (f) : Provided (closure f)
  | delayedBroadcast (f) : Provided (delayedBroadcast f)
  | delayedBroadcastExcept (f) : Provided (delayedBroadcastExcept f)
  | delayedForEach (f) : Provided (delayedForEach f)

section Finish

variable [ByteRepr S] [ByteRepr R] {ctx : MiniUdpContext} {cb : OnReceiveCallback State W A S R}

theorem OnReceiveCallback.Provided.finish_runs (ctx : MiniUdpContext) (h : Provided cb)
    (multi : MultiUdpCommunicator A S R) (state : State) (w : W) (order : List A) :
    (∀ a, ((cb.finish order multi state w).1.coms a).isSome = (multi.coms a).isSome) ∧
      ∀ log, Family.Enumerates order multi.coms → ∃ ops : List (Op A S),
        (∀ op ∈ ops, op.isRequest = true) ∧
          Runs ctx (multi, log) ops ((cb.finish order multi state w).1, log) := by
  cases h with
  | unit | closure f =>
    exact ⟨fun _ => rfl, fun log _ => ⟨[], by simp, .nil _⟩⟩
  | delayedBroadcast f =>
    have h := metByOps_broadcast (W := W) (R := R) (S := S) (A := A) ctx
    exact ⟨isSome_foldl (fun st t => h.isSome order st.1 t st.2) state (multi, w),
      fun log hord => h.runs multi state w hord log⟩
  | delayedBroadcastExcept f =>
    have h := metByOps_broadcastExcept (W := W) (R := R) (S := S) (A := A) ctx
    exact ⟨isSome_foldl (fun st t => h.isSome order st.1 t st.2) state (multi, w),
      fun log hord => h.runs multi state w hord log⟩
  | delayedForEach f =>
    have h := metByOps_forEach (W := W) (R := R) (S := S) (A := A) ctx
    exact ⟨isSome_foldl (fun st t => h.isSome order st.1 t st.2) state (multi, w),
      fun log hord => h.runs multi state w hord log⟩

/-- `recv` with any callback is receiving the datagrams, with some calls made for each, and then
doing what was asked for. -/
theorem recvWith_runs (hcb : Provided cb) {multi multi' : MultiUdpCommunicator A S R}
    {w w' : W} {start order : List A} {es : List (Arrival A)}
    (hstart : Family.Enumerates start multi.coms) (hord : Family.Enumerates order multi'.coms)
    (h : MultiUdpCommunicator.recvWith ctx cb order es (multi, w) = .ok (multi', w'))
    (log : SendLog A S) : ∃ (css : List (List (Call S))) (ops : List (Op A S)),
      css.length = es.length ∧ (∀ op ∈ ops, op.isRequest = true) ∧
        Runs ctx (multi, log) (.recv (es.zip css) :: ops) (multi', log) := by
  obtain ⟨⟨multi1, state1, w1⟩, hloop, h⟩ := Outcome.bind_eq_ok.mp h
  obtain ⟨css, hlen, hexec⟩ := recv_exec hloop start log
  have hfinish := hcb.finish_runs ctx multi1 state1 w1 order
  rw [show cb.finish order multi1 state1 w1 = (multi', w') from Outcome.ok.inj h] at hfinish
  obtain ⟨ops, hall, hops⟩ := hfinish.2 log ⟨hord.nodup, fun a => by rw [hord.mem, hfinish.1]⟩
  exact ⟨css, ops, hlen, hall, .cons start hstart hexec hops⟩

end Finish

/-! ## Where the requests of a delayed broadcast go -/

section Delayed

variable [ByteRepr R] {ctx : MiniUdpContext}

/-- The closure that only notes what it would ask for. -/
def noting (f : A → InnerUdpCommunicator S R → W → List (Call S) × List T × W) :
    Handler (W × List T) A S R := fun addr com w =>
  ((f addr com w.1).1, (f addr com w.1).2.2, w.2 ++ (f addr com w.1).2.1)

/-- Requests are only met when everything is received. -/
theorem recvWith_delayed (f : A → InnerUdpCommunicator S R → W → List (Call S) × List T × W)
    (meet : List A → MultiUdpCommunicator A S R → T → W → MultiUdpCommunicator A S R × W)
    (order : List A) (es : List (Arrival A)) (multi : MultiUdpCommunicator A S R) (w : W) :
    MultiUdpCommunicator.recvWith ctx (delayed f meet) order es (multi, w) =
      (fun r => r.2.2.foldl (fun st t => meet order st.1 t st.2) (r.1, r.2.1)) <$>
        MultiUdpCommunicator.recvWith ctx (.closure (noting f)) order es (multi, (w, [])) := by
  have hmap := Outcome.foldlM_map (ε := ByteReprError)
    (φ := fun r : MultiUdpCommunicator A S R × Unit × W × List T => (r.1, r.2.2.2, r.2.2.1))
    (f := MultiUdpCommunicator.recvRound ctx (.closure (noting f)))
    (g := MultiUdpCommunicator.recvRound ctx (delayed f meet)) (P := fun _ _ => True) (l := es)
    (s := (multi, (), w, [])) trivial fun _ e _ r _ _ => by
      refine ⟨?_, fun _ _ => trivial⟩
      unfold MultiUdpCommunicator.recvRound
      dsimp only
      cases ((r.1.coms e.addr).getD e.default).readPacket ctx
        (r.1.socket.dataBuffer.recvFrom e.datagram).1
        (r.1.socket.dataBuffer.recvFrom e.datagram).2 e.now <;> rfl
  rw [recvWith_closure]
  unfold MultiUdpCommunicator.recvWith
  change (es.foldlM (MultiUdpCommunicator.recvRound ctx (delayed f meet)) (multi, [], w) >>= _) = _
  change _ = es.foldlM (MultiUdpCommunicator.recvRound ctx (delayed f meet)) (multi, [], w) at hmap
  rw [← hmap]
  cases es.foldlM (MultiUdpCommunicator.recvRound ctx (.closure (noting f)))
    (multi, (), w, []) <;> rfl

/-- The connection, with more messages to be sent reliably. -/
def queueing (com : InnerUdpCommunicator S R) (messages : List S) : InnerUdpCommunicator S R :=
  { com with reliableSendQueue := com.reliableSendQueue ++ messages }

omit [ByteRepr R] in
theorem coms_foldl_callAt {order : List A} (h : order.Nodup) (cs : List (Call S))
    (multi : MultiUdpCommunicator A S R) (b : A) :
    (order.foldl (fun multi a => multi.callAt a cs) multi).coms b =
      if b ∈ order then (multi.coms b).map (calls · cs) else multi.coms b := by
  induction order generalizing multi with
  | nil => simp
  | cons a order ih =>
    obtain ⟨ha, h⟩ := List.nodup_cons.mp h
    rw [List.foldl_cons, ih h, coms_callAt]
    by_cases hb : b = a
    · subst hb
      simp [ha]
    · simp [hb]

omit [ByteRepr R] in
theorem coms_broadcast {order : List A} (h : order.Nodup) (multi : MultiUdpCommunicator A S R)
    (message : S) (a : A) : (multi.broadcast order message).coms a =
      if a ∈ order then (multi.coms a).map (queueing · [message]) else multi.coms a := by
  rw [broadcast_calls, coms_foldl_callAt h]
  rfl

omit [ByteRepr R] in
/-- Requests for broadcasts, each to the connections it goes to. -/
theorem coms_requests {meet : MultiUdpCommunicator A S R → T → W → MultiUdpCommunicator A S R × W}
    {order : List A} {goes : A → T → Bool} {message : T → S}
    (hmeet : ∀ multi t w, meet multi t w =
      (multi.broadcast (order.filter fun a => goes a t) (message t), w))
    (requests : List T) (multi : MultiUdpCommunicator A S R) (w : W)
    (hord : Family.Enumerates order multi.coms) :
    (requests.foldl (fun st t => meet st.1 t st.2) (multi, w)).2 = w ∧
      ∀ a, (requests.foldl (fun st t => meet st.1 t st.2) (multi, w)).1.coms a =
        (multi.coms a).map (queueing · ((requests.filter (goes a)).map message)) := by
  induction requests generalizing multi with
  | nil =>
    refine ⟨rfl, fun a => ?_⟩
    simp [queueing]
  | cons t requests ih =>
    have hone : ∀ a, (multi.broadcast (order.filter fun a => goes a t) (message t)).coms a =
        (multi.coms a).map (queueing · (if goes a t then [message t] else [])) := by
      intro a
      simp only [coms_broadcast (hord.nodup.filter _), List.mem_filter, hord.mem]
      cases hc : multi.coms a with
      | none => simp
      | some com => cases hg : goes a t <;> simp [queueing]
    rw [List.foldl_cons, hmeet]
    obtain ⟨hw, hcoms⟩ := ih (multi.broadcast (order.filter fun a => goes a t) (message t))
      ⟨hord.nodup, fun a => by rw [hord.mem, hone, Option.isSome_map]⟩
    refine ⟨hw, fun a => ?_⟩
    rw [hcoms, hone, Option.map_map]
    refine congrArg (Option.map · (multi.coms a)) (funext fun com => ?_)
    cases hg : goes a t <;> simp [queueing, hg]

/-- After `recv` with a delayed broadcast every connection there is then has the messages asked
for at the end of its queue, also one made by this `recv`. -/
theorem delayed_queue {meet : List A → MultiUdpCommunicator A S R → T → W →
      MultiUdpCommunicator A S R × W} {order : List A} (goes : A → T → Bool) (message : T → S)
    (hmeet : ∀ multi t w, meet order multi t w =
      (multi.broadcast (order.filter fun a => goes a t) (message t), w))
    (f : A → InnerUdpCommunicator S R → W → List (Call S) × List T × W)
    {multi multi' : MultiUdpCommunicator A S R} {w w' : W} {es : List (Arrival A)}
    (hord : Family.Enumerates order multi'.coms)
    (h : MultiUdpCommunicator.recvWith ctx (delayed f meet) order es (multi, w) =
      .ok (multi', w')) :
    ∃ multi1 requests,
      MultiUdpCommunicator.recvWith ctx (.closure (noting f)) order es (multi, (w, [])) =
        .ok (multi1, (w', requests)) ∧
      ∀ a, multi'.coms a =
        (multi1.coms a).map (queueing · ((requests.filter (goes a)).map message)) := by
  rw [recvWith_delayed] at h
  cases hr : MultiUdpCommunicator.recvWith ctx (.closure (noting f)) order es
    (multi, (w, [])) with
  | ok r =>
    obtain ⟨multi1, w1, requests⟩ := r
    rw [hr] at h
    have hfold : requests.foldl (fun st t => meet order st.1 t st.2) (multi1, w1) =
        (multi', w') := Outcome.ok.inj h
    have hsome := isSome_foldl (g := fun st t => meet order st.1 t st.2)
      (fun st t a => by rw [hmeet]; exact isSome_broadcast _ _ _ a) requests (multi1, w1)
    rw [hfold] at hsome
    obtain ⟨hw, hcoms⟩ := coms_requests hmeet requests multi1 w1
      ⟨hord.nodup, fun a => by rw [hord.mem, hsome]⟩
    rw [hfold] at hw hcoms
    obtain rfl : w' = w1 := hw
    exact ⟨multi1, requests, rfl, hcoms⟩
  | err | panic | hang => rw [hr] at h; cases h

theorem delayedBroadcast_queue {f : A → InnerUdpCommunicator S R → W → List (Call S) × List S × W}
    {multi multi' : MultiUdpCommunicator A S R} {w w' : W} {order : List A} {es : List (Arrival A)}
    (hord : Family.Enumerates order multi'.coms)
    (h : MultiUdpCommunicator.recvWith ctx (.delayedBroadcast f) order es (multi, w) =
      .ok (multi', w')) :
    ∃ multi1 messages,
      MultiUdpCommunicator.recvWith ctx (.closure (noting f)) order es (multi, (w, [])) =
        .ok (multi1, (w', messages)) ∧
      ∀ a, multi'.coms a = (multi1.coms a).map (queueing · messages) := by
  obtain ⟨multi1, messages, hrun, hcoms⟩ := delayed_queue (fun _ _ => true) (fun m => m)
    (fun multi t w => by simp) f hord h
  exact ⟨multi1, messages, hrun, by simpa using hcoms⟩

theorem delayedBroadcastExcept_queue
    {f : A → InnerUdpCommunicator S R → W → List (Call S) × List (A × S) × W}
    {multi multi' : MultiUdpCommunicator A S R} {w w' : W} {order : List A} {es : List (Arrival A)}
    (hord : Family.Enumerates order multi'.coms)
    (h : MultiUdpCommunicator.recvWith ctx (.delayedBroadcastExcept f) order es (multi, w) =
      .ok (multi', w')) :
    ∃ multi1 requests,
      MultiUdpCommunicator.recvWith ctx (.closure (noting f)) order es (multi, (w, [])) =
        .ok (multi1, (w', requests)) ∧
      ∀ a, multi'.coms a = (multi1.coms a).map
        (queueing · ((requests.filter fun r => a ≠ r.1).map Prod.snd)) := by
  obtain ⟨multi1, requests, hrun, hcoms⟩ := delayed_queue (fun a r => a ≠ r.1) Prod.snd
    (fun multi t w => rfl) f hord h
  exact ⟨multi1, requests, hrun, hcoms⟩

end Delayed

/-! ## Requests while datagrams come in -/

/-- A closure that counts the datagrams and has each passed on to the other connections. -/
def passOn : OnReceiveCallback (List (Bool × Bool)) Nat Bool Bool Bool :=
  .delayedBroadcastExcept fun addr _ n => ([.read], [(addr, true)], n + 1)

theorem recvWith_passOn : ∃ multi n, MultiUdpCommunicator.recvWith (crcContext 1 false) passOn
    [true, false] mixedArrivals ({ socket := pairSocket }, 0) = .ok (multi, n) ∧
      Family.Enumerates [true, false] multi.coms := by
  have hok : (MultiUdpCommunicator.recvWith (crcContext 1 false) passOn [true, false]
      mixedArrivals ({ socket := pairSocket }, 0)).isOkAnd
        (fun r => (r.1.coms true).isSome && (r.1.coms false).isSome) = true := by
    decide +kernel
  obtain ⟨⟨multi, n⟩, hr, hsome⟩ := Outcome.isOkAnd_iff.mp hok
  obtain ⟨ht, hf⟩ := Bool.and_eq_true_iff.mp hsome
  exact ⟨multi, n, hr, by decide, fun a => by cases a <;> simp [ht, hf]⟩

theorem recvWith_runs_passOn : ∃ (multi : MultiUdpCommunicator Bool Bool Bool)
    (css : List (List (Call Bool))) (ops : List (Op Bool Bool)),
    css.length = mixedArrivals.length ∧ (∀ op ∈ ops, op.isRequest = true) ∧
      Runs (crcContext 1 false) (({ socket := pairSocket } : MultiUdpCommunicator Bool Bool Bool), [])
        (.recv (mixedArrivals.zip css) :: ops) (multi, []) := by
  obtain ⟨multi, n, h, hord⟩ := recvWith_passOn
  obtain ⟨css, ops, hrun⟩ := recvWith_runs (.delayedBroadcastExcept _)
    ⟨.nil, fun a => by simp⟩ hord h []
  exact ⟨multi, css, ops, hrun⟩

theorem delayedBroadcastExcept_queue_passOn : ∃ multi multi1 n requests,
    MultiUdpCommunicator.recvWith (crcContext 1 false) passOn [true, false] mixedArrivals
      ({ socket := pairSocket }, 0) = .ok (multi, n) ∧
    MultiUdpCommunicator.recvWith (crcContext 1 false)
      (.closure (noting fun addr _ n => ([.read], [(addr, true)], n + 1))) [true, false]
      mixedArrivals ({ socket := pairSocket }, (0, [])) = .ok (multi1, (n, requests)) ∧
    ∀ a, multi.coms a = (multi1.coms a).map
      (queueing · ((requests.filter fun r => a ≠ r.1).map Prod.snd)) := by
  obtain ⟨multi, n, h, hord⟩ := recvWith_passOn
  obtain ⟨multi1, requests, h1, hcoms⟩ := delayedBroadcastExcept_queue hord h
  exact ⟨multi, multi1, n, requests, h, h1, hcoms⟩

end MiniUdp
