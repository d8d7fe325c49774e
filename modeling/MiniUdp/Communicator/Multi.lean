import MiniUdp.Communicator.Wire
import MiniUdp.Lib.Keyed

/-!
# Many connections

`MultiUdpCommunicator` keeps one end of a connection for each address it has
received from, behind one socket and one buffer. Reading a datagram looks at no
byte of the buffer but the datagram's own (`checkDatagram_congr`), so the
connections are a family of machines that do not interfere (`recv_peers`).
-/

namespace MiniUdp

variable {A S R : Type}

structure MultiUdpCommunicator (A S R : Type) where
  socket : UdpCommunicatorSocket DataBuffer
  /-- The connections, by address. -/
  coms : A → Option (InnerUdpCommunicator S R) := fun _ => none

/-- A datagram the socket hands out, with the clock readings made for it. -/
structure Arrival (A : Type) where
  addr : A
  datagram : Bytes
  /-- The two readings of `InnerUdpCommunicator::default`, if the address is a new one. -/
  lastSeen : Instant
  lastSend : Instant
  /-- The reading of `read_packet`. -/
  now : Instant

/-- `recv_from` into the buffer: what does not fit is cut off. The number is that of the bytes
received. -/
def DataBuffer.recvFrom (buf : DataBuffer) (datagram : Bytes) : Nat × DataBuffer :=
  let received := datagram.take MAX_PACKET_LEN
  (received.length, buf.overwrite received)

def Arrival.default (e : Arrival A) : InnerUdpCommunicator S R :=
  { lastSeen := e.lastSeen, lastSend := e.lastSend }

section Recv

variable [DecidableEq A] [ByteRepr R] (ctx : MiniUdpContext)
  (onRecv : A → InnerUdpCommunicator S R → InnerUdpCommunicator S R)

/-- One iteration of `recv`, with a callback that touches only the connection it is given. -/
def MultiUdpCommunicator.recvOne (multi : MultiUdpCommunicator A S R) (e : Arrival A) :
    Res (MultiUdpCommunicator A S R) := do
  let (n, dataBuffer) := multi.socket.dataBuffer.recvFrom e.datagram
  let com := (multi.coms e.addr).getD e.default
  let com ← com.readPacket ctx n dataBuffer e.now
  pure { socket := { multi.socket with dataBuffer }
         coms := Function.update multi.coms e.addr (some (onRecv e.addr com)) }

def MultiUdpCommunicator.recv (multi : MultiUdpCommunicator A S R) (es : List (Arrival A)) :
    Res (MultiUdpCommunicator A S R) :=
  es.foldlM (recvOne ctx onRecv) multi

/-- One connection, or none yet, that reads a datagram into a buffer of its own. -/
def recvAlone (st : DataBuffer × Option (InnerUdpCommunicator S R)) (e : Arrival A) :
    Res (DataBuffer × Option (InnerUdpCommunicator S R)) := do
  let (n, dataBuffer) := st.1.recvFrom e.datagram
  let com ← (st.2.getD e.default).readPacket ctx n dataBuffer e.now
  pure (dataBuffer, some (onRecv e.addr com))

end Recv

/-! ## What reading depends on -/

theorem checkDatagram_congr [ByteRepr R] (ctx : MiniUdpContext) {n : Nat} {buf buf' : DataBuffer}
    (h : buf.bytes.take n = buf'.bytes.take n) :
    checkDatagram (M := R) ctx n buf = checkDatagram ctx n buf' := by
  have hslice : sliceOf buf.bytes 4 n = sliceOf buf'.bytes 4 n := by
    rw [sliceOf, sliceOf, buf.length_eq, buf'.length_eq, h]
  unfold checkDatagram
  rw [hslice]
  by_cases h4 : 4 ≤ n
  · have htake : buf.bytes.take 4 = buf'.bytes.take 4 := by
      rw [← Nat.min_eq_left h4, ← List.take_take, h, List.take_take]
    rw [htake]
  · -- the slice panics before the checksum is compared
    have hpanic : sliceOf buf'.bytes 4 n = .panic := if_neg fun hc => h4 hc.1
    rw [hpanic]
    cases ctx.debug <;> rfl

/-- `read_packet` has no error to return. -/
theorem checkDatagram_ne_err [ByteRepr R] (ctx : MiniUdpContext) (n : Nat) (buf : DataBuffer)
    (e : ByteReprError) : checkDatagram (M := R) ctx n buf ≠ .err e := by
  unfold checkDatagram sliceOf
  split
  · simp only [Outcome.bind_ok]
    generalize Packet.fromBytes (M := R) ((buf.bytes.take n).drop 4) = decoded
    cases ctx.debug <;> cases decoded <;> simp <;> split <;> simp
  · cases ctx.debug <;> simp

theorem take_recvFrom (buf : DataBuffer) (datagram : Bytes) :
    (buf.recvFrom datagram).2.bytes.take (buf.recvFrom datagram).1 =
      datagram.take MAX_PACKET_LEN := by
  have hle : (datagram.take MAX_PACKET_LEN).length ≤ MAX_PACKET_LEN := by
    rw [List.length_take]
    exact Nat.min_le_left _ _
  unfold DataBuffer.recvFrom
  rw [DataBuffer.bytes_overwrite _ hle, List.take_left]

/-- What `read_packet` makes of a datagram, whatever buffer it is received in. -/
def checkReceived [ByteRepr R] (ctx : MiniUdpContext) (datagram : Bytes) : Res (Option (Packet R)) :=
  checkDatagram ctx (emptyBuffer.recvFrom datagram).1 (emptyBuffer.recvFrom datagram).2

theorem readPacket_recvFrom [ByteRepr R] (ctx : MiniUdpContext) (com : InnerUdpCommunicator S R)
    (buf : DataBuffer) (datagram : Bytes) (now : Instant) :
    com.readPacket ctx (buf.recvFrom datagram).1 (buf.recvFrom datagram).2 now =
      checkReceived ctx datagram >>= fun packet =>
        pure (match packet with | some packet => com.onPacket now packet | none => com) := by
  have hcheck : checkDatagram (M := R) ctx (buf.recvFrom datagram).1 (buf.recvFrom datagram).2 =
      checkReceived ctx datagram :=
    checkDatagram_congr ctx ((take_recvFrom buf datagram).trans
      (take_recvFrom emptyBuffer datagram).symm)
  rw [InnerUdpCommunicator.readPacket, hcheck]
  cases checkReceived (R := R) ctx datagram with
  | ok packet => cases packet <;> rfl
  | _ => rfl

/-- `read_packet` returns on this datagram, in whatever state and buffer it comes in. -/
def Readable (S R : Type) [ByteRepr R] (ctx : MiniUdpContext) (datagram : Bytes) : Prop :=
  ∀ (com : InnerUdpCommunicator S R) (buf : DataBuffer) (now : Instant),
    (com.readPacket ctx (buf.recvFrom datagram).1 (buf.recvFrom datagram).2 now).returns = true

theorem readable_of_returns [ByteRepr R] {ctx : MiniUdpContext} {d : Bytes}
    (h : (checkReceived (R := R) ctx d).returns = true) : Readable S R ctx d := by
  intro com buf now
  rw [readPacket_recvFrom]
  cases hcheck : checkReceived (R := R) ctx d with
  | ok packet => rfl
  | err e => rfl
  | _ => rw [hcheck] at h; cases h

/-! ## The family of connections -/

section Family

variable [DecidableEq A] [ByteRepr R] {ctx : MiniUdpContext}
  {onRecv : A → InnerUdpCommunicator S R → InnerUdpCommunicator S R}

/-- What a readable datagram does to its connection. -/
def react (ctx : MiniUdpContext)
    (onRecv : A → InnerUdpCommunicator S R → InnerUdpCommunicator S R) (e : Arrival A)
    (com : Option (InnerUdpCommunicator S R)) : InnerUdpCommunicator S R :=
  match checkReceived ctx e.datagram with
  | .ok (some packet) => onRecv e.addr ((com.getD e.default).onPacket e.now packet)
  | _ => onRecv e.addr (com.getD e.default)

theorem readPacket_of_readable {d : Bytes} (h : Readable S R ctx d)
    (com : InnerUdpCommunicator S R) (buf : DataBuffer) (now : Instant) :
    com.readPacket ctx (buf.recvFrom d).1 (buf.recvFrom d).2 now =
      .ok (match checkReceived (R := R) ctx d with
        | .ok (some packet) => com.onPacket now packet
        | _ => com) := by
  have hret := h com buf now
  rw [readPacket_recvFrom] at hret ⊢
  cases hcheck : checkReceived (R := R) ctx d with
  | ok packet => cases packet <;> rfl
  | err e => exact absurd hcheck (checkDatagram_ne_err _ _ _ e)
  | panic => rw [hcheck] at hret; cases hret
  | hang => rw [hcheck] at hret; cases hret

omit [DecidableEq A] in
theorem onRecv_readPacket (e : Arrival A) (com : Option (InnerUdpCommunicator S R)) :
    onRecv e.addr (match checkReceived (R := R) ctx e.datagram with
      | .ok (some packet) => (com.getD e.default).onPacket e.now packet
      | _ => com.getD e.default) = react ctx onRecv e com := by
  unfold react
  split <;> rfl

theorem recvOne_eq (multi : MultiUdpCommunicator A S R) {e : Arrival A}
    (h : Readable S R ctx e.datagram) :
    ∃ multi', multi.recvOne ctx onRecv e = .ok multi' ∧
      multi'.coms = Keyed.step Arrival.addr (react ctx onRecv) multi.coms e := by
  unfold MultiUdpCommunicator.recvOne
  simp only [readPacket_of_readable h, Outcome.bind_ok, Outcome.pure_def, onRecv_readPacket]
  exact ⟨_, rfl, rfl⟩

theorem recv_eq (multi : MultiUdpCommunicator A S R) {es : List (Arrival A)}
    (h : ∀ e ∈ es, Readable S R ctx e.datagram) :
    ∃ multi', multi.recv ctx onRecv es = .ok multi' ∧
      multi'.coms = Keyed.run Arrival.addr (react ctx onRecv) multi.coms es := by
  induction es generalizing multi with
  | nil => exact ⟨multi, rfl, rfl⟩
  | cons e es ih =>
    obtain ⟨multi1, h1, hcoms1⟩ := recvOne_eq multi (h e List.mem_cons_self)
    obtain ⟨multi2, h2, hcoms2⟩ := ih multi1 fun d hd => h d (List.mem_cons_of_mem e hd)
    refine ⟨multi2, ?_, ?_⟩
    · rw [MultiUdpCommunicator.recv, List.foldlM_cons, h1, Outcome.bind_ok]
      exact h2
    · rw [hcoms2, hcoms1]
      rfl

omit [DecidableEq A] in
theorem recvAlone_eq {es : List (Arrival A)} (h : ∀ e ∈ es, Readable S R ctx e.datagram)
    (buf : DataBuffer) (com : Option (InnerUdpCommunicator S R)) :
    ∃ buf', es.foldlM (recvAlone ctx onRecv) (buf, com) =
      .ok (buf', Keyed.runAlone (react ctx onRecv) com es) := by
  induction es generalizing buf com with
  | nil => exact ⟨buf, rfl⟩
  | cons e es ih =>
    have hone : recvAlone ctx onRecv (buf, com) e =
        .ok ((buf.recvFrom e.datagram).2, some (react ctx onRecv e com)) := by
      unfold recvAlone
      simp only [readPacket_of_readable (h e List.mem_cons_self), Outcome.bind_ok,
        Outcome.pure_def, onRecv_readPacket]
    obtain ⟨buf', hbuf⟩ := ih (fun d hd => h d (List.mem_cons_of_mem e hd))
      (buf.recvFrom e.datagram).2 (some (react ctx onRecv e com))
    exact ⟨buf', by rw [List.foldlM_cons, hone, Outcome.bind_ok, hbuf]; rfl⟩

/-- After `recv`, a connection is as if it alone had read its own datagrams, one that none is for
is as it was, and the order of datagrams of different addresses has not mattered. -/
def PeersSeparate (ctx : MiniUdpContext)
    (onRecv : A → InnerUdpCommunicator S R → InnerUdpCommunicator S R)
    (multi : MultiUdpCommunicator A S R) (es : List (Arrival A)) : Prop :=
  ∃ multi', multi.recv ctx onRecv es = .ok multi' ∧
    (∀ a buf, ∃ buf', (es.filter fun e => e.addr = a).foldlM (recvAlone ctx onRecv)
      (buf, multi.coms a) = .ok (buf', multi'.coms a)) ∧
    (∀ a, (∀ e ∈ es, e.addr ≠ a) → multi'.coms a = multi.coms a) ∧
    ∀ es' : List (Arrival A),
      (∀ a, (es'.filter fun e => e.addr = a) = es.filter fun e => e.addr = a) →
      ∃ multi'', multi.recv ctx onRecv es' = .ok multi'' ∧ multi''.coms = multi'.coms

theorem recv_peers (multi : MultiUdpCommunicator A S R) {es : List (Arrival A)}
    (h : ∀ e ∈ es, Readable S R ctx e.datagram) : PeersSeparate ctx onRecv multi es := by
  obtain ⟨multi', hrecv, hcoms⟩ := recv_eq multi h
  refine ⟨multi', hrecv, fun a buf => ?_, fun a ha => ?_, fun es' hes => ?_⟩
  · obtain ⟨buf', hbuf⟩ := recvAlone_eq (fun e he => h e (List.mem_of_mem_filter he)) buf
      (multi.coms a)
    exact ⟨buf', by rw [hbuf, hcoms, Keyed.run_apply]⟩
  · rw [hcoms, Keyed.run_apply_of_forall_ne _ ha]
  · have h' : ∀ e ∈ es', Readable S R ctx e.datagram := fun e he => by
      have hmem : e ∈ es'.filter fun d => d.addr = e.addr :=
        List.mem_filter.mpr ⟨he, decide_eq_true rfl⟩
      rw [hes] at hmem
      exact h e (List.mem_of_mem_filter hmem)
    obtain ⟨multi'', hrecv', hcoms'⟩ := recv_eq multi h'
    exact ⟨multi'', hrecv', by rw [hcoms', hcoms, Keyed.run_congr _ hes]⟩

end Family

/-- Two addresses: one sends a packet twice, the other one bytes that are no packet. -/
def mixedArrivals : List (Arrival Bool) :=
  [⟨true, datagram (crcContext 1 false) (numbered 0), 1, 2, 3⟩, ⟨false, [0, 0, 0, 0], 4, 5, 6⟩,
    ⟨true, datagram (crcContext 1 false) (numbered 0), 7, 8, 9⟩]

theorem recv_peers_mixed : PeersSeparate (crcContext 1 false) (fun _ com => com.read.2)
    ({ socket := { dataBuffer := emptyBuffer } } : MultiUdpCommunicator Bool Bool Bool)
    mixedArrivals := by
  have hreturns : ∀ e ∈ mixedArrivals,
      (checkReceived (R := Bool) (crcContext 1 false) e.datagram).returns = true := by
    decide +kernel
  exact recv_peers _ fun e he => readable_of_returns (hreturns e he)

end MiniUdp
