import MiniUdp.System.Star
import Mathlib.Data.List.Perm.Basic

/-!
# The fake delay

With the `debug` feature a socket can hold back what it receives. A communicator
with such a socket does what one without it does on a network that delays: each
datagram is received once or is still held back (`delayed_plain`), and `receive`
leaves nothing behind that is due (`receive_due`). What holds of two communicators
over any network holds with fake delays at both ends (`delayed_connection`).
-/

namespace MiniUdp

open InnerUdpCommunicator

variable {A S R : Type}

/-! ## The socket -/

/-- A packet of `fake_delayed_buffer`. -/
structure FakeDelayed (A : Type) where
  addr : Option A
  dataBuffer : DataBuffer
  n : Nat
  instant : Instant

structure DelayingSocket (A : Type) where
  socket : UdpCommunicatorSocket DataBuffer
  /-- `start..end`, in milliseconds. -/
  fakeDelay : Nat × Nat := (0, 0)
  fakeDelayedBuffer : List (FakeDelayed A) := []

/-- `Vec::swap_remove` -/
def swapRemove {T : Type} (xs : List T) (i : Nat) : Option (T × List T) := do
  let x ← xs[i]?
  let last ← xs.getLast?
  pure (x, (xs.set i last).dropLast)

namespace DelayingSocket

/-- `delayMs` is the random number, `now` the reading made. -/
def delayPacket (s : DelayingSocket A) (addr : Option A) (n delayMs : Nat) (now : Instant) :
    Bool × DelayingSocket A :=
  if s.fakeDelay.1 < s.fakeDelay.2 then
    (true, { s with fakeDelayedBuffer := s.fakeDelayedBuffer ++
      [⟨addr, s.socket.dataBuffer, n, now + fromMillis delayMs⟩] })
  else (false, s)

/-- A reading is made for each packet that is looked at. -/
def readDelayed (s : DelayingSocket A) (now : Nat → Instant) :
    Option ((Nat × Option A) × DelayingSocket A) := do
  let i ← s.fakeDelayedBuffer.zipIdx.findIdx? fun p => elapsed (now p.2) p.1.instant == 0
  let (packet, rest) ← swapRemove s.fakeDelayedBuffer i
  pure ((packet.n, packet.addr), { s with
    socket := { s.socket with dataBuffer := packet.dataBuffer }, fakeDelayedBuffer := rest })

end DelayingSocket

/-! ## The communicator -/

/-- A datagram the socket hands out, with what is drawn and read for it. -/
structure Delayable extends Incoming where
  delayMs : Nat
  /-- The reading of `delay_packet`. -/
  stamp : Instant

/-- The readings made after the socket has nothing more, by round. -/
structure DelayEnv where
  /-- Those of `read_delayed`, by the place in the buffer. -/
  scan : Nat → Nat → Instant
  /-- That of `read_packet`. -/
  now : Nat → Instant

structure DelayingCommunicator (A S R : Type) where
  socket : DelayingSocket A
  inner : InnerUdpCommunicator S R

namespace DelayingCommunicator

section Receive

variable [ByteRepr R] (ctx : MiniUdpContext)

/-- The first loop of `receive`, one datagram. -/
def receiveOne (com : DelayingCommunicator A S R) (d : Delayable) :
    Res (DelayingCommunicator A S R) :=
  let (n, dataBuffer) := com.socket.socket.dataBuffer.recvFrom d.datagram
  let socket := { com.socket with socket := { com.socket.socket with dataBuffer } }
  let (delayed, socket) :=
    if ctx.debug then socket.delayPacket none n d.delayMs d.stamp else (false, socket)
  if delayed then pure { com with socket }
  else do
    let inner ← com.inner.readPacket ctx n dataBuffer d.now
    pure { socket, inner }

/-- The second loop, from a round on. -/
def readAllDelayed (env : DelayEnv) :
    Nat → Nat → DelayingCommunicator A S R → Res (DelayingCommunicator A S R)
  | 0, round, com => if (com.socket.readDelayed (env.scan round)).isNone then pure com else .hang
  | fuel + 1, round, com =>
    match com.socket.readDelayed (env.scan round) with
    | none => pure com
    | some ((n, _), socket) => do
      let inner ← com.inner.readPacket ctx n socket.socket.dataBuffer (env.now round)
      readAllDelayed env fuel (round + 1) { socket, inner }

/-- `InnerUdpCommunicator::receive` -/
def receive (env : DelayEnv) (com : DelayingCommunicator A S R) (ds : List Delayable) :
    Res (DelayingCommunicator A S R) := do
  let com ← ds.foldlM (receiveOne ctx) com
  -- each round takes one packet out of the buffer
  if ctx.debug then readAllDelayed ctx env com.socket.fakeDelayedBuffer.length 0 com
  else pure com

end Receive

end DelayingCommunicator

/-- What happens to a communicator with a delaying socket. -/
inductive DelayEvent (S : Type) where
  | calls (cs : List (Call S))
  | receive (env : DelayEnv) (ds : List Delayable)
  | send (env : SendEnv S)

/-- The event, and what has been handed to the socket. -/
def DelayingCommunicator.step [ByteRepr S] [ByteRepr R] (ctx : MiniUdpContext)
    (st : DelayingCommunicator A S R × List (Sent S)) :
    DelayEvent S → Res (DelayingCommunicator A S R × List (Sent S))
  | .calls cs => pure ({ st.1 with inner := st.1.inner.calls cs }, st.2)
  | .receive env ds => do
    let com ← st.1.receive ctx env ds
    pure (com, st.2)
  | .send env => do
    let (com, sent) ← UdpCommunicator.send ctx env ⟨st.1.socket.socket, st.1.inner⟩
    pure (⟨{ st.1.socket with socket := com.socket }, com.inner⟩, st.2 ++ [sent])

/-- The bytes that are held back. -/
def FakeDelayed.datagram (packet : FakeDelayed A) : Bytes :=
  packet.dataBuffer.bytes.take packet.n

def DelayingCommunicator.held (com : DelayingCommunicator A S R) : List Bytes :=
  com.socket.fakeDelayedBuffer.map FakeDelayed.datagram

/-- What fits the buffer of what the socket hands out. -/
def DelayEvent.arrived : DelayEvent S → List Bytes
  | .receive _ ds => ds.map fun d => d.datagram.take MAX_PACKET_LEN
  | _ => []

/-- What the application does. -/
def DelayEvent.asked : DelayEvent S → List (ComEvent S)
  | .calls cs => [.calls cs]
  | .send env => [.send env]
  | .receive _ _ => []

def ComEvent.datagrams : ComEvent S → List Bytes
  | .receive d => [d.datagram]
  | _ => []

def ComEvent.isReceive : ComEvent S → Bool
  | .receive _ => true
  | _ => false

def UdpCommunicator.run [ByteRepr S] [ByteRepr R] (ctx : MiniUdpContext)
    (st : UdpCommunicator S R × List (Sent S)) (evs : List (ComEvent S)) :
    Res (UdpCommunicator S R × List (Sent S)) := evs.foldlM (UdpCommunicator.step ctx) st

def DelayingCommunicator.run [ByteRepr S] [ByteRepr R] (ctx : MiniUdpContext)
    (st : DelayingCommunicator A S R × List (Sent S)) (evs : List (DelayEvent S)) :
    Res (DelayingCommunicator A S R × List (Sent S)) :=
  evs.foldlM (DelayingCommunicator.step ctx) st

/-! ## One packet -/

theorem exists_swapRemove {T : Type} {xs : List T} {i : Nat} (hi : i < xs.length) :
    ∃ r, swapRemove xs i = some r := by
  have hne : xs ≠ [] := List.ne_nil_of_length_pos (Nat.zero_lt_of_lt hi)
  refine ⟨(xs[i], (xs.set i (xs.getLast hne)).dropLast), ?_⟩
  simp [swapRemove, List.getElem?_eq_getElem hi, List.getLast?_eq_some_getLast hne]

theorem swapRemove_perm {T : Type} {xs rest : List T} {i : Nat} {x : T}
    (h : swapRemove xs i = some (x, rest)) : xs[i]? = some x ∧ (x :: rest).Perm xs := by
  simp only [swapRemove, Option.bind_eq_bind, Option.bind_eq_some_iff] at h
  obtain ⟨y, hy, last, hlast, h⟩ := h
  cases h
  obtain ⟨hi, rfl⟩ := List.getElem?_eq_some_iff.mp hy
  refine ⟨hy, ?_⟩
  have hne : xs.set i last ≠ [] := by
    apply List.ne_nil_of_length_pos
    rw [List.length_set]
    omega
  have hend : (xs.set i last).getLast hne = last := by
    rw [List.getLast_eq_getElem, List.getElem_set]
    split
    · rfl
    · rw [List.getLast?_eq_getElem?] at hlast
      simp only [List.length_set]
      exact (List.getElem?_eq_some_iff.mp hlast).2
  have hset : ((xs.set i last).dropLast ++ [last]).Perm (last :: xs.eraseIdx i) := by
    nth_rewrite 2 [← hend]
    rw [List.dropLast_append_getLast hne]
    exact List.set_perm_cons_eraseIdx hi last
  have hrest : (xs.set i last).dropLast.Perm (xs.eraseIdx i) :=
    (List.perm_cons last).mp ((List.perm_append_singleton last _).symm.trans hset)
  exact (hrest.cons _).trans (List.getElem_cons_eraseIdx_perm hi)

variable {s s' : DelayingSocket A} {now : Nat → Instant} {n : Nat} {addr : Option A}

/-- What is read was held back until its time. -/
theorem DelayingSocket.readDelayed_some (h : s.readDelayed now = some ((n, addr), s')) :
    ∃ packet ∈ s.fakeDelayedBuffer, (∃ j, packet.instant ≤ now j) ∧ n = packet.n ∧
      s'.socket = { s.socket with dataBuffer := packet.dataBuffer } ∧
      s'.fakeDelay = s.fakeDelay ∧
      (packet :: s'.fakeDelayedBuffer).Perm s.fakeDelayedBuffer := by
  simp only [readDelayed, Option.bind_eq_bind, Option.bind_eq_some_iff] at h
  obtain ⟨i, hi, ⟨packet, rest⟩, hr, h⟩ := h
  cases h
  obtain ⟨hget, hperm⟩ := swapRemove_perm hr
  refine ⟨packet, hperm.subset List.mem_cons_self, ⟨i, ?_⟩, rfl, rfl, rfl, hperm⟩
  obtain ⟨hlt, hdue, -⟩ := List.findIdx?_eq_some_iff_getElem.mp hi
  obtain ⟨hlt', hpacket⟩ := List.getElem?_eq_some_iff.mp hget
  simp only [List.getElem_zipIdx, elapsed, Nat.zero_add, beq_iff_eq] at hdue
  rw [hpacket] at hdue
  exact Int.le_of_sub_nonpos (Int.toNat_eq_zero.mp hdue)

/-- Nothing is due if nothing is read. -/
theorem DelayingSocket.readDelayed_none (h : s.readDelayed now = none) {j : Nat}
    {packet : FakeDelayed A} (hj : s.fakeDelayedBuffer[j]? = some packet) :
    now j < packet.instant := by
  have hnone : s.fakeDelayedBuffer.zipIdx.findIdx?
      (fun p => elapsed (now p.2) p.1.instant == 0) = none := by
    cases hi : s.fakeDelayedBuffer.zipIdx.findIdx?
      (fun p => elapsed (now p.2) p.1.instant == 0) with
    | none => rfl
    | some i =>
      obtain ⟨hi', -, -⟩ := List.findIdx?_eq_some_iff_getElem.mp hi
      rw [List.length_zipIdx] at hi'
      obtain ⟨r, hr⟩ := exists_swapRemove hi'
      simp [readDelayed, hi, hr] at h
  have hall := List.findIdx?_eq_none_iff.mp hnone (packet, j)
    (List.mem_zipIdx_iff_getElem?.mpr hj)
  simp only [elapsed, beq_eq_false_iff_ne, ne_eq, Int.toNat_eq_zero] at hall
  exact Int.sub_pos.mp (Int.not_le.mp hall)

/-! ## The same without a delay -/

section Mimics

variable [ByteRepr S] [ByteRepr R] {ctx : MiniUdpContext}
  {com com' : DelayingCommunicator A S R} {plain : UdpCommunicator S R}
  {sent sent' : List (Sent S)}

/-- The communicators are the same but for the buffers. -/
structure Mimics (com : DelayingCommunicator A S R) (plain : UdpCommunicator S R) : Prop where
  socket : plain.socket.blind = com.socket.socket.blind
  inner : plain.inner = com.inner
  fits : com.inner.PacketsFit
  held : ∀ packet ∈ com.socket.fakeDelayedBuffer, packet.n ≤ MAX_PACKET_LEN

omit [ByteRepr S] in
/-- A packet that was held back is read like the datagram it came in. -/
theorem readPacket_take {inner : InnerUdpCommunicator S R} {n : Nat} (hn : n ≤ MAX_PACKET_LEN)
    (buf buf' : DataBuffer) (now : Instant) :
    inner.readPacket ctx (buf'.recvFrom (buf.bytes.take n)).1
      (buf'.recvFrom (buf.bytes.take n)).2 now = inner.readPacket ctx n buf now := by
  have hlen : (buf'.recvFrom (buf.bytes.take n)).1 = n := by
    simp only [DataBuffer.recvFrom, List.length_take, buf.length_eq]
    omega
  have htake := take_recvFrom buf' (buf.bytes.take n)
  rw [hlen, List.take_take, Nat.min_eq_right hn] at htake
  rw [hlen, InnerUdpCommunicator.readPacket, InnerUdpCommunicator.readPacket,
    checkDatagram_congr ctx htake]

omit [ByteRepr S] in
theorem readPacket_plain {inner : InnerUdpCommunicator S R} {n : Nat} {buf : DataBuffer}
    {now : Instant} (hin : plain.inner.readPacket ctx n buf now = .ok inner)
    (hn : n ≤ MAX_PACKET_LEN) :
    ∃ plain', plain.receiveOne ctx ⟨buf.bytes.take n, now⟩ = .ok plain' ∧
      plain'.inner = inner ∧ plain'.socket.blind = plain.socket.blind := by
  have hread := (readPacket_take hn buf plain.socket.dataBuffer now).trans hin
  exact ⟨_, Outcome.bind_eq_ok.mpr ⟨inner, hread, rfl⟩, rfl, rfl⟩

omit [ByteRepr S] in
theorem recv_single {plain' : UdpCommunicator S R} {d : Incoming}
    (h : plain.receiveOne ctx d = .ok plain') : plain.recv ctx [d] = .ok plain' := by
  unfold UdpCommunicator.recv
  rw [List.foldlM_cons]
  exact Outcome.bind_eq_ok.mpr ⟨plain', h, rfl⟩

omit [ByteRepr S] in
theorem recv_append {plain' plain'' : UdpCommunicator S R} {ds ds' : List Incoming}
    (h : plain.recv ctx ds = .ok plain') (h' : plain'.recv ctx ds' = .ok plain'') :
    plain.recv ctx (ds ++ ds') = .ok plain'' := by
  unfold UdpCommunicator.recv at h h' ⊢
  rw [List.foldlM_append, h]
  exact h'

omit [ByteRepr S] in
/-- A datagram is held back or read. -/
theorem receiveOne_cases {d : Delayable} (hr : com.receiveOne ctx d = .ok com') :
    (com'.inner = com.inner ∧ com'.socket.socket.blind = com.socket.socket.blind ∧
      ∃ instant, com'.socket.fakeDelayedBuffer = com.socket.fakeDelayedBuffer ++
        [⟨none, (com.socket.socket.dataBuffer.recvFrom d.datagram).2,
          (com.socket.socket.dataBuffer.recvFrom d.datagram).1, instant⟩]) ∨
    (com.inner.readPacket ctx (com.socket.socket.dataBuffer.recvFrom d.datagram).1
        (com.socket.socket.dataBuffer.recvFrom d.datagram).2 d.now = .ok com'.inner ∧
      com'.socket.socket.blind = com.socket.socket.blind ∧
      com'.socket.fakeDelayedBuffer = com.socket.fakeDelayedBuffer) := by
  unfold DelayingCommunicator.receiveOne DelayingSocket.delayPacket at hr
  by_cases hdebug : ctx.debug = true
  · by_cases hdelay : com.socket.fakeDelay.1 < com.socket.fakeDelay.2
    · simp only [hdebug, hdelay, if_true] at hr
      cases hr
      exact .inl ⟨rfl, rfl, _, rfl⟩
    · simp only [hdebug, hdelay, if_true, if_false, Bool.false_eq_true] at hr
      obtain ⟨inner, hread, hr⟩ := Outcome.bind_eq_ok.mp hr
      cases hr
      exact .inr ⟨hread, rfl, rfl⟩
  · simp only [hdebug, if_false, Bool.false_eq_true] at hr
    obtain ⟨inner, hread, hr⟩ := Outcome.bind_eq_ok.mp hr
    cases hr
    exact .inr ⟨hread, rfl, rfl⟩

theorem Mimics.receiveOne (h : Mimics com plain) {d : Delayable}
    (hr : com.receiveOne ctx d = .ok com') :
    ∃ ds plain', plain.recv ctx ds = .ok plain' ∧ Mimics com' plain' ∧
      (ds.map Incoming.datagram ++ com'.held).Perm
        (com.held ++ [d.datagram.take MAX_PACKET_LEN]) := by
  obtain ⟨socket, inner, fits, held⟩ := h
  have hn : (com.socket.socket.dataBuffer.recvFrom d.datagram).1 ≤ MAX_PACKET_LEN :=
    List.length_take_le _ _
  have htake := take_recvFrom com.socket.socket.dataBuffer d.datagram
  obtain ⟨hinner, hblind, instant, hbuffer⟩ | ⟨hread, hblind, hbuffer⟩ := receiveOne_cases hr
  · -- held back: the other one has not received it yet
    refine ⟨[], plain, rfl, ⟨socket.trans hblind.symm, inner.trans hinner.symm, hinner ▸ fits,
      fun packet hp => ?_⟩, ?_⟩
    · rw [hbuffer] at hp
      obtain hp | hp := List.mem_append.mp hp
      · exact held packet hp
      · cases List.mem_singleton.mp hp
        exact hn
    · simp [DelayingCommunicator.held, hbuffer, FakeDelayed.datagram, htake]
  · -- read at once
    obtain ⟨plain', hplain, hinner, hsocket⟩ := readPacket_plain (inner.symm ▸ hread) hn
    rw [htake] at hplain
    refine ⟨[_], plain', recv_single hplain, ⟨hsocket.trans (socket.trans hblind.symm), hinner,
      fits.readPacket hread, hbuffer ▸ held⟩, ?_⟩
    simp only [DelayingCommunicator.held, hbuffer]
    exact List.perm_append_comm

theorem Mimics.receiveAll (h : Mimics com plain) {arrivals : List Delayable}
    (hr : arrivals.foldlM (DelayingCommunicator.receiveOne ctx) com = .ok com') :
    ∃ ds plain', plain.recv ctx ds = .ok plain' ∧ Mimics com' plain' ∧
      (ds.map Incoming.datagram ++ com'.held).Perm
        (com.held ++ arrivals.map fun d => d.datagram.take MAX_PACKET_LEN) := by
  induction arrivals generalizing com plain with
  | nil =>
    cases hr
    exact ⟨[], plain, rfl, h, by simp⟩
  | cons d arrivals ih =>
    rw [List.foldlM_cons] at hr
    obtain ⟨com1, h1, hr⟩ := Outcome.bind_eq_ok.mp hr
    obtain ⟨ds1, plain1, hrecv1, hm1, hperm1⟩ := h.receiveOne h1
    obtain ⟨ds2, plain2, hrecv2, hm2, hperm2⟩ := ih hm1 hr
    refine ⟨ds1 ++ ds2, plain2, recv_append hrecv1 hrecv2, hm2, ?_⟩
    simp only [List.map_append, List.map_cons, List.append_assoc]
    refine (hperm2.append_left _).trans ?_
    rw [← List.append_assoc, ← List.singleton_append, ← List.append_assoc]
    exact hperm1.append_right _

/-- The second loop reads what is due, and ends when nothing is. -/
theorem Mimics.readAllDelayed (h : Mimics com plain) {env : DelayEnv} {fuel round : Nat}
    (hr : DelayingCommunicator.readAllDelayed ctx env fuel round com = .ok com') :
    ∃ ds plain', plain.recv ctx ds = .ok plain' ∧ Mimics com' plain' ∧
      (ds.map Incoming.datagram ++ com'.held).Perm com.held ∧
      ∃ last, com'.socket.readDelayed (env.scan last) = none := by
  induction fuel generalizing round com plain with
  | zero =>
    unfold DelayingCommunicator.readAllDelayed at hr
    split at hr
    · cases hr
      exact ⟨[], plain, rfl, h, .refl _, round, Option.isNone_iff_eq_none.mp ‹_›⟩
    · cases hr
  | succ fuel ih =>
    unfold DelayingCommunicator.readAllDelayed at hr
    split at hr
    · cases hr
      exact ⟨[], plain, rfl, h, .refl _, round, ‹_›⟩
    · rename_i n addr socket hdelayed
      obtain ⟨inner, hread, hrest⟩ := Outcome.bind_eq_ok.mp hr
      obtain ⟨packet, hpacket, -, rfl, hsocket, -, hperm⟩ :=
        DelayingSocket.readDelayed_some hdelayed
      rw [hsocket] at hread
      obtain ⟨plain1, hplain, hinner, hblind⟩ :=
        readPacket_plain (h.inner.symm ▸ hread) (h.held packet hpacket)
      have hm : Mimics ⟨socket, inner⟩ plain1 :=
        ⟨hblind.trans (h.socket.trans (by rw [hsocket]; rfl)), hinner, h.fits.readPacket hread,
          fun p hp => h.held p (hperm.subset (List.mem_cons_of_mem _ hp))⟩
      obtain ⟨ds, plain2, hrecv, hm2, hperm2, hdue⟩ := ih hm hrest
      refine ⟨_ :: ds, plain2, recv_append (recv_single hplain) hrecv, hm2, ?_, hdue⟩
      exact (hperm2.cons _).trans (hperm.map FakeDelayed.datagram)

omit [ByteRepr R] in
theorem send_plain [LawfulByteRepr S] {inner : InnerUdpCommunicator S R}
    (hfits : inner.PacketsFit) {socket own : UdpCommunicatorSocket DataBuffer}
    (hblind : own.blind = socket.blind) {env : SendEnv S} {c : UdpCommunicator S R}
    {one : Sent S} (hs : UdpCommunicator.send ctx env ⟨socket, inner⟩ = .ok (c, one)) :
    ∃ c', UdpCommunicator.send ctx env ⟨own, inner⟩ = .ok (c', one) ∧ c'.inner = c.inner := by
  have hsame := send_same ctx hfits env hblind
  rw [hs] at hsame
  cases hown : UdpCommunicator.send ctx env ⟨own, inner⟩ with
  | ok r =>
    rw [hown] at hsame
    obtain ⟨hinner, rfl⟩ := Prod.ext_iff.mp (Outcome.ok.inj hsame)
    exact ⟨r.1, rfl, hinner.symm⟩
  | err | panic | hang =>
    rw [hown] at hsame
    cases hsame

theorem run_receives {plain' : UdpCommunicator S R} {ds : List Incoming}
    (h : plain.recv ctx ds = .ok plain') :
    UdpCommunicator.run ctx (plain, sent) (ds.map .receive) = .ok (plain', sent) := by
  induction ds generalizing plain with
  | nil =>
    cases h
    rfl
  | cons d ds ih =>
    unfold UdpCommunicator.recv at h ih
    rw [List.foldlM_cons] at h
    obtain ⟨plain1, h1, h⟩ := Outcome.bind_eq_ok.mp h
    exact Outcome.bind_eq_ok.mpr
      ⟨(plain1, sent), Outcome.bind_eq_ok.mpr ⟨plain1, h1, rfl⟩, ih h⟩

/-- What an event does is done without a delay by the same calls and by receiving other
datagrams: what is held back now waits, and what was held back comes in. -/
theorem Mimics.step [LawfulByteRepr S] (h : Mimics com plain) {ev : DelayEvent S}
    (hs : DelayingCommunicator.step ctx (com, sent) ev = .ok (com', sent')) :
    ∃ evs plain', UdpCommunicator.run ctx (plain, sent) evs = .ok (plain', sent') ∧
      Mimics com' plain' ∧
      (evs.flatMap ComEvent.datagrams ++ com'.held).Perm (com.held ++ ev.arrived) ∧
      evs.filter (fun e => !e.isReceive) = ev.asked := by
  cases ev with
  | calls cs =>
    cases hs
    exact ⟨[.calls cs], { plain with inner := plain.inner.calls cs }, rfl,
      ⟨h.socket, congrArg (·.calls cs) h.inner, h.fits.calls cs, h.held⟩,
      by simp [ComEvent.datagrams, DelayEvent.arrived, DelayingCommunicator.held], rfl⟩
  | receive env arrivals =>
    obtain ⟨com1, hr, hs⟩ := Outcome.bind_eq_ok.mp hs
    cases hs
    obtain ⟨com2, h1, h2⟩ := Outcome.bind_eq_ok.mp hr
    obtain ⟨ds, plain1, hrecv, hm, hperm⟩ := h.receiveAll h1
    have hrest : ∃ ds' plain2, plain1.recv ctx ds' = .ok plain2 ∧ Mimics com' plain2 ∧
        (ds'.map Incoming.datagram ++ com'.held).Perm com2.held := by
      split at h2
      · obtain ⟨ds', plain2, hrecv', hm', hperm', -⟩ := hm.readAllDelayed h2
        exact ⟨ds', plain2, hrecv', hm', hperm'⟩
      · cases h2
        exact ⟨[], plain1, rfl, hm, .refl _⟩
    obtain ⟨ds', plain2, hrecv', hm', hperm'⟩ := hrest
    refine ⟨(ds ++ ds').map .receive, plain2, run_receives (recv_append hrecv hrecv'), hm', ?_, ?_⟩
    · have hdatagrams : ((ds ++ ds').map ComEvent.receive).flatMap (ComEvent.datagrams (S := S)) =
          ds.map Incoming.datagram ++ ds'.map Incoming.datagram := by
        rw [List.flatMap_map, ← List.map_append, List.map_eq_flatMap]
        rfl
      rw [hdatagrams, List.append_assoc]
      exact (hperm'.append_left _).trans hperm
    · simp [DelayEvent.asked, ComEvent.isReceive, List.filter_map, Function.comp_def]
  | send env =>
    obtain ⟨⟨c, one⟩, hr, hs⟩ := Outcome.bind_eq_ok.mp hs
    cases hs
    obtain ⟨c', hc', hinner⟩ := send_plain h.fits h.socket hr
    rw [← h.inner] at hc'
    obtain ⟨hb, r, hsend⟩ := blind_send hr
    obtain ⟨hb', -⟩ := blind_send hc'
    refine ⟨[.send env], c', ?_, ⟨hb'.trans (h.socket.trans hb.symm), hinner,
      h.fits.send hsend, h.held⟩, by simp [ComEvent.datagrams, DelayEvent.arrived,
        DelayingCommunicator.held], rfl⟩
    exact Outcome.bind_eq_ok.mpr ⟨_, Outcome.bind_eq_ok.mpr ⟨(c', one), hc', rfl⟩, rfl⟩

theorem Mimics.run [LawfulByteRepr S] (h : Mimics com plain) {evs : List (DelayEvent S)}
    (hs : DelayingCommunicator.run ctx (com, sent) evs = .ok (com', sent')) :
    ∃ evs' plain', UdpCommunicator.run ctx (plain, sent) evs' = .ok (plain', sent') ∧
      Mimics com' plain' ∧
      (evs'.flatMap ComEvent.datagrams ++ com'.held).Perm
        (com.held ++ evs.flatMap DelayEvent.arrived) ∧
      evs'.filter (fun e => !e.isReceive) = evs.flatMap DelayEvent.asked := by
  induction evs generalizing com plain sent with
  | nil =>
    cases hs
    exact ⟨[], plain, rfl, h, by simp, rfl⟩
  | cons ev evs ih =>
    unfold DelayingCommunicator.run at hs ih
    rw [List.foldlM_cons] at hs
    obtain ⟨⟨com1, sent1⟩, h1, hs⟩ := Outcome.bind_eq_ok.mp hs
    obtain ⟨evs1, plain1, hrun1, hm1, hperm1, hasked1⟩ := h.step h1
    obtain ⟨evs2, plain2, hrun2, hm2, hperm2, hasked2⟩ := ih hm1 hs
    refine ⟨evs1 ++ evs2, plain2, ?_, hm2, ?_, ?_⟩
    · unfold UdpCommunicator.run at hrun1 hrun2 ⊢
      rw [List.foldlM_append]
      exact Outcome.bind_eq_ok.mpr ⟨_, hrun1, hrun2⟩
    · rw [List.flatMap_append, List.append_assoc, List.flatMap_cons, ← List.append_assoc com.held]
      refine (hperm2.append_left _).trans ?_
      rw [← List.append_assoc]
      exact hperm1.append_right _
    · rw [List.filter_append, hasked1, hasked2, List.flatMap_cons]

omit [ByteRepr R] in
theorem mimics_start {socket : DelayingSocket A} (hempty : socket.fakeDelayedBuffer = [])
    (lastSeen lastSend : Instant) :
    Mimics ⟨socket, ({ lastSeen, lastSend } : InnerUdpCommunicator S R)⟩
      ⟨socket.socket, { lastSeen, lastSend }⟩ := by
  refine ⟨rfl, rfl, packetsFit_default lastSeen lastSend, ?_⟩
  rw [hempty]
  exact fun packet h => absurd h List.not_mem_nil

/-- A communicator with a fake delay does what one without does that is asked for the same, on a
network that delays: each datagram that arrives is received once, or is still held back. -/
theorem delayed_plain [LawfulByteRepr S] {socket : DelayingSocket A}
    (hempty : socket.fakeDelayedBuffer = []) {lastSeen lastSend : Instant}
    {evs : List (DelayEvent S)} (hs : DelayingCommunicator.run ctx
      (⟨socket, ({ lastSeen, lastSend } : InnerUdpCommunicator S R)⟩, []) evs =
        .ok (com, sent)) :
    ∃ evs' plain, UdpCommunicator.run ctx
        (⟨socket.socket, ({ lastSeen, lastSend } : InnerUdpCommunicator S R)⟩, []) evs' =
          .ok (plain, sent) ∧
      plain.inner = com.inner ∧
      evs'.filter (fun e => !e.isReceive) = evs.flatMap DelayEvent.asked ∧
      (evs'.flatMap ComEvent.datagrams ++ com.held).Perm (evs.flatMap DelayEvent.arrived) := by
  obtain ⟨evs', plain, hrun, hm, hperm, hasked⟩ := (mimics_start hempty lastSeen lastSend).run hs
  refine ⟨evs', plain, hrun, hm.inner, hasked, hperm.trans ?_⟩
  rw [DelayingCommunicator.held, hempty]
  exact .refl _

/-! ## When it is read -/

omit [ByteRepr S] in
theorem receiveOne_returns {d : Delayable}
    (h : Readable S R ctx (d.datagram.take MAX_PACKET_LEN)) :
    ∃ com', com.receiveOne ctx d = .ok com' := by
  have hsame : ∀ buf : DataBuffer,
      buf.recvFrom (d.datagram.take MAX_PACKET_LEN) = buf.recvFrom d.datagram := by
    intro buf
    simp only [DataBuffer.recvFrom, List.take_take, Nat.min_self]
  have hread := readPacket_of_readable h com.inner com.socket.socket.dataBuffer d.now
  rw [hsame] at hread
  unfold DelayingCommunicator.receiveOne
  dsimp only
  split
  · split
    · exact ⟨_, rfl⟩
    · exact ⟨_, Outcome.bind_eq_ok.mpr ⟨_, hread, rfl⟩⟩
  · exact ⟨_, Outcome.bind_eq_ok.mpr ⟨_, hread, rfl⟩⟩

theorem Mimics.receiveAll_returns (h : Mimics com plain) {arrivals : List Delayable}
    (hread : ∀ d ∈ arrivals, Readable S R ctx (d.datagram.take MAX_PACKET_LEN)) :
    ∃ com', arrivals.foldlM (DelayingCommunicator.receiveOne ctx) com = .ok com' := by
  induction arrivals generalizing com plain with
  | nil => exact ⟨com, rfl⟩
  | cons d arrivals ih =>
    obtain ⟨com1, h1⟩ : ∃ com1, com.receiveOne ctx d = .ok com1 :=
      receiveOne_returns (hread d List.mem_cons_self)
    obtain ⟨-, plain1, -, hm, -⟩ := h.receiveOne h1
    obtain ⟨com', h'⟩ := ih hm fun d hd => hread d (List.mem_cons_of_mem _ hd)
    rw [List.foldlM_cons]
    exact ⟨com', Outcome.bind_eq_ok.mpr ⟨com1, h1, h'⟩⟩

omit [ByteRepr S] in
theorem readAllDelayed_returns {env : DelayEnv} {fuel round : Nat}
    (hfuel : com.socket.fakeDelayedBuffer.length ≤ fuel)
    (hread : ∀ packet ∈ com.socket.fakeDelayedBuffer,
      packet.n ≤ MAX_PACKET_LEN ∧ Readable S R ctx packet.datagram) :
    ∃ com', DelayingCommunicator.readAllDelayed ctx env fuel round com = .ok com' := by
  induction fuel generalizing round com with
  | zero =>
    have hnone : com.socket.readDelayed (env.scan round) = none := by
      rw [DelayingSocket.readDelayed, List.eq_nil_of_length_eq_zero (Nat.le_zero.mp hfuel)]
      rfl
    refine ⟨com, ?_⟩
    unfold DelayingCommunicator.readAllDelayed
    rw [hnone]
    rfl
  | succ fuel ih =>
    unfold DelayingCommunicator.readAllDelayed
    split
    · exact ⟨com, rfl⟩
    · rename_i n addr socket hdelayed
      obtain ⟨packet, hpacket, -, rfl, hsocket, -, hperm⟩ :=
        DelayingSocket.readDelayed_some hdelayed
      obtain ⟨hn, hreadable⟩ := hread packet hpacket
      obtain ⟨inner, hone⟩ : ∃ inner, com.inner.readPacket ctx packet.n packet.dataBuffer
          (env.now round) = .ok inner :=
        ⟨_, (readPacket_take hn packet.dataBuffer emptyBuffer (env.now round)).symm.trans
          (readPacket_of_readable hreadable com.inner emptyBuffer (env.now round))⟩
      have hlen := hperm.length_eq
      rw [List.length_cons] at hlen
      have hless : socket.fakeDelayedBuffer.length ≤ fuel := by omega
      obtain ⟨com', h'⟩ : ∃ com', DelayingCommunicator.readAllDelayed ctx env fuel (round + 1)
          ⟨socket, inner⟩ = .ok com' :=
        ih hless fun p hp => hread p (hperm.subset (List.mem_cons_of_mem _ hp))
      rw [hsocket]
      exact ⟨com', Outcome.bind_eq_ok.mpr ⟨inner, hone, h'⟩⟩

/-- With readable datagrams `receive` ends, and then nothing is held back that was due at a time
that no reading of the clock is before. -/
theorem receive_due [LawfulByteRepr S] (hdebug : ctx.debug = true) {socket : DelayingSocket A}
    (hempty : socket.fakeDelayedBuffer = []) {lastSeen lastSend : Instant}
    {evs : List (DelayEvent S)} (hs : DelayingCommunicator.run ctx
      (⟨socket, ({ lastSeen, lastSend } : InnerUdpCommunicator S R)⟩, []) evs =
        .ok (com, sent)) {env : DelayEnv} {arrivals : List Delayable}
    (hread : ∀ d ∈ com.held ++ arrivals.map fun d => d.datagram.take MAX_PACKET_LEN,
      Readable S R ctx d) :
    ∃ com', com.receive ctx env arrivals = .ok com' ∧
      ∀ start, (∀ round j, start ≤ env.scan round j) →
        ∀ packet ∈ com'.socket.fakeDelayedBuffer, start < packet.instant := by
  obtain ⟨-, plain, -, hm, -⟩ := (mimics_start hempty lastSeen lastSend).run hs
  obtain ⟨com1, h1⟩ := hm.receiveAll_returns fun d hd =>
    hread _ (List.mem_append_right _ (List.mem_map_of_mem hd))
  obtain ⟨ds, plain1, -, hm1, hperm⟩ := hm.receiveAll h1
  have hheld : ∀ packet ∈ com1.socket.fakeDelayedBuffer,
      packet.n ≤ MAX_PACKET_LEN ∧ Readable S R ctx packet.datagram := fun packet hp =>
    ⟨hm1.held packet hp, hread _ (hperm.subset
      (List.mem_append_right _ (List.mem_map_of_mem hp)))⟩
  obtain ⟨com', h2⟩ : ∃ com', DelayingCommunicator.readAllDelayed ctx env
      com1.socket.fakeDelayedBuffer.length 0 com1 = .ok com' :=
    readAllDelayed_returns (Nat.le_refl _) hheld
  obtain ⟨-, -, -, -, -, last, hlast⟩ := hm1.readAllDelayed h2
  refine ⟨com', Outcome.bind_eq_ok.mpr ⟨com1, h1, ?_⟩,
    fun start hclock packet hp => ?_⟩
  · rw [if_pos hdebug]
    exact h2
  · obtain ⟨j, hj⟩ := List.mem_iff_getElem?.mp hp
    exact lt_of_le_of_lt (hclock last j) (DelayingSocket.readDelayed_none hlast hj)

end Mimics

/-! ## Both ends -/

/-- What an event writes. -/
def DelayEvent.written (channel : Channel) (ev : DelayEvent S) : List S :=
  ev.asked.flatMap (ComEvent.written channel)

/-- Two communicators with a fake delay, each with what it has handed to its socket. -/
structure DelayedPair (S R : Type) where
  client : DelayingCommunicator Unit R S × List (Sent R)
  peer : DelayingCommunicator Unit S R × List (Sent S)

def DelayedPair.swap (pair : DelayedPair S R) : DelayedPair R S := ⟨pair.peer, pair.client⟩

section Both

variable [ByteRepr S] [ByteRepr R] (ctx : MiniUdpContext)

/-- A step of one end. What arrives there has been handed to the socket at the other. -/
inductive DelayedPair.Step (pair : DelayedPair S R) :
    DelayEvent R ⊕ DelayEvent S → DelayedPair S R → Prop where
  | client {ev : DelayEvent R} {next : DelayingCommunicator Unit R S × List (Sent R)} :
      (∀ d ∈ ev.arrived, d ∈ pair.peer.2.flatMap handed) →
      DelayingCommunicator.step ctx pair.client ev = .ok next →
      pair.Step (.inl ev) { pair with client := next }
  | peer {ev : DelayEvent S} {next : DelayingCommunicator Unit S R × List (Sent S)} :
      (∀ d ∈ ev.arrived, d ∈ pair.client.2.flatMap handed) →
      DelayingCommunicator.step ctx pair.peer ev = .ok next →
      pair.Step (.inr ev) { pair with peer := next }

inductive DelayedPair.Runs (pair : DelayedPair S R) :
    List (DelayEvent R ⊕ DelayEvent S) → DelayedPair S R → Prop where
  | nil : pair.Runs [] pair
  | snoc {evs : List (DelayEvent R ⊕ DelayEvent S)} {ev : DelayEvent R ⊕ DelayEvent S}
      {pair' pair'' : DelayedPair S R} :
      pair.Runs evs pair' → pair'.Step ctx ev pair'' → pair.Runs (evs ++ [ev]) pair''

/-- What is written at the client. -/
def writtenByClient (channel : Channel) : DelayEvent R ⊕ DelayEvent S → List R
  | .inl ev => ev.written channel
  | .inr _ => []

def writtenByPeer (channel : Channel) : DelayEvent R ⊕ DelayEvent S → List S
  | .inl _ => []
  | .inr ev => ev.written channel

/-- There are two communicators without a delay that are joined. What is held back at one end has
been sent by the other. -/
def DelayedPair.Linked (wrote : Channel → List R) (wroteBack : Channel → List S)
    (pair : DelayedPair S R) : Prop :=
  ∃ client peer, Joined ctx wrote wroteBack (client, pair.client.2) (peer, pair.peer.2) ∧
    Mimics pair.client.1 client ∧ Mimics pair.peer.1 peer ∧
    (∀ d ∈ pair.client.1.held, d ∈ pair.peer.2.flatMap handed) ∧
    ∀ d ∈ pair.peer.1.held, d ∈ pair.client.2.flatMap handed

variable {ctx} {wrote : Channel → List R} {wroteBack : Channel → List S}
  {pair pair' : DelayedPair S R}

theorem DelayedPair.Linked.swap (h : pair.Linked ctx wrote wroteBack) :
    pair.swap.Linked ctx wroteBack wrote := by
  obtain ⟨client, peer, hj, hc, hp, hheld, hheld'⟩ := h
  exact ⟨peer, client, hj.swap, hp, hc, hheld', hheld⟩

omit [ByteRepr S] in
/-- Receiving writes nothing. -/
theorem written_filter (evs : List (ComEvent S)) (channel : Channel) :
    (evs.filter fun e => !e.isReceive).flatMap (ComEvent.written channel) =
      evs.flatMap (ComEvent.written channel) := by
  induction evs with
  | nil => rfl
  | cons ev evs ih =>
    cases ev with
    | receive d => exact ih
    | calls cs => exact congrArg (cs.flatMap (Call.written channel) ++ ·) ih
    | send env => exact ih

theorem Joined.runClient (hS : (crcLink (M := S) ctx).Faithful)
    (hR : (crcLink (M := R) ctx).Faithful)
    {client client' : UdpCommunicator R S × List (Sent R)}
    {peer : UdpCommunicator S R × List (Sent S)} (h : Joined ctx wrote wroteBack client peer)
    {evs : List (ComEvent R)}
    (hin : ∀ d ∈ evs.flatMap ComEvent.datagrams, d ∈ peer.2.flatMap handed)
    (hs : UdpCommunicator.run ctx client evs = .ok client') :
    Joined ctx (fun channel => wrote channel ++ evs.flatMap (ComEvent.written channel)) wroteBack
      client' peer := by
  induction evs generalizing wrote client with
  | nil =>
    cases hs
    simpa using h
  | cons ev evs ih =>
    unfold UdpCommunicator.run at hs ih
    rw [List.foldlM_cons] at hs
    obtain ⟨client1, h1, hs⟩ := Outcome.bind_eq_ok.mp hs
    have hone : ∀ d, ev = .receive d → d.datagram ∈ peer.2.flatMap handed := by
      rintro d rfl
      exact hin d.datagram (List.mem_append_left _ List.mem_cons_self)
    have hrest := ih (h.stepClient hS hR hone h1)
      (fun d hd => hin d (List.mem_append_right _ hd)) hs
    simpa only [List.flatMap_cons, List.append_assoc] using hrest

/-- What has been handed over stays so. -/
theorem DelayingCommunicator.step_sent {com com' : DelayingCommunicator A S R}
    {sent sent' : List (Sent S)} {ev : DelayEvent S}
    (hs : DelayingCommunicator.step ctx (com, sent) ev = .ok (com', sent')) :
    ∀ d ∈ sent.flatMap handed, d ∈ sent'.flatMap handed := by
  intro d hd
  cases ev with
  | calls cs =>
    cases hs
    exact hd
  | receive env ds =>
    obtain ⟨com1, -, hs⟩ := Outcome.bind_eq_ok.mp hs
    cases hs
    exact hd
  | send env =>
    obtain ⟨⟨c, one⟩, -, hs⟩ := Outcome.bind_eq_ok.mp hs
    cases hs
    rw [List.flatMap_append]
    exact List.mem_append_left _ hd

variable (hS : (crcLink (M := S) ctx).Faithful) (hR : (crcLink (M := R) ctx).Faithful)
include hS hR

theorem DelayedPair.Linked.stepClient [LawfulByteRepr R] (h : pair.Linked ctx wrote wroteBack)
    {ev : DelayEvent R} {next : DelayingCommunicator Unit R S × List (Sent R)}
    (hin : ∀ d ∈ ev.arrived, d ∈ pair.peer.2.flatMap handed)
    (hs : DelayingCommunicator.step ctx pair.client ev = .ok next) :
    DelayedPair.Linked ctx (fun channel => wrote channel ++ ev.written channel) wroteBack
      { pair with client := next } := by
  obtain ⟨client, peer, hj, hc, hp, hheld, hheld'⟩ := h
  obtain ⟨evs, client', hrun, hm, hperm, hasked⟩ := hc.step hs
  have hall : ∀ d ∈ evs.flatMap ComEvent.datagrams ++ next.1.held,
      d ∈ pair.peer.2.flatMap handed := fun d hd =>
    (List.mem_append.mp (hperm.subset hd)).elim (hheld d) (hin d)
  have hj' := hj.runClient hS hR (fun d hd => hall d (List.mem_append_left _ hd)) hrun
  have hwritten : ∀ channel,
      evs.flatMap (ComEvent.written channel) = ev.written channel := fun channel => by
    rw [DelayEvent.written, ← hasked, written_filter]
  simp only [hwritten] at hj'
  exact ⟨client', peer, hj', hm, hp, fun d hd => hall d (List.mem_append_right _ hd),
    fun d hd => DelayingCommunicator.step_sent hs d (hheld' d hd)⟩

theorem DelayedPair.Linked.step [LawfulByteRepr S] [LawfulByteRepr R]
    (h : pair.Linked ctx wrote wroteBack) {ev : DelayEvent R ⊕ DelayEvent S}
    (hs : pair.Step ctx ev pair') :
    pair'.Linked ctx (fun channel => wrote channel ++ writtenByClient channel ev)
      (fun channel => wroteBack channel ++ writtenByPeer channel ev) := by
  cases hs with
  | client hin hev =>
    simp only [writtenByClient, writtenByPeer, List.append_nil]
    exact h.stepClient hS hR hin hev
  | peer hin hev =>
    simp only [writtenByClient, writtenByPeer, List.append_nil]
    exact (h.swap.stepClient hR hS hin hev).swap

theorem DelayedPair.Runs.linked [LawfulByteRepr S] [LawfulByteRepr R]
    (h : pair.Linked ctx (fun _ => []) fun _ => []) {evs : List (DelayEvent R ⊕ DelayEvent S)}
    (hruns : pair.Runs ctx evs pair') :
    pair'.Linked ctx (fun channel => evs.flatMap (writtenByClient channel))
      (fun channel => evs.flatMap (writtenByPeer channel)) := by
  induction hruns with
  | nil => exact h
  | snoc _ hs ih =>
    simpa only [List.flatMap_append, List.flatMap_singleton] using ih.step hS hR hs

omit hS hR in
theorem DelayedPair.linked_start {socket socket' : DelayingSocket Unit}
    (hempty : socket.fakeDelayedBuffer = []) (hempty' : socket'.fakeDelayedBuffer = [])
    (t1 t2 t3 t4 : Instant) :
    DelayedPair.Linked (S := S) (R := R) ctx (fun _ => []) (fun _ => [])
      ⟨(⟨socket, { lastSeen := t1, lastSend := t2 }⟩, []),
        (⟨socket', { lastSeen := t3, lastSend := t4 }⟩, [])⟩ := by
  refine ⟨⟨socket.socket, { lastSeen := t1, lastSend := t2 }⟩,
    ⟨socket'.socket, { lastSeen := t3, lastSend := t4 }⟩,
    (Alone.start socket.socket t1 t2).join socket'.socket t3 t4, mimics_start hempty t1 t2,
    mimics_start hempty' t3 t4, ?_, ?_⟩
  · simp [DelayingCommunicator.held, hempty]
  · simp [DelayingCommunicator.held, hempty']

/-- Fake delays at both ends, whatever the network does besides, change nothing about what is put
out: it was written at the other end, and if it is ordered and there are few packets it is a piece
of that. -/
theorem delayed_connection [LawfulByteRepr S] [LawfulByteRepr R]
    {socket socket' : DelayingSocket Unit} (hempty : socket.fakeDelayedBuffer = [])
    (hempty' : socket'.fakeDelayedBuffer = []) {t1 t2 t3 t4 : Instant}
    {evs : List (DelayEvent R ⊕ DelayEvent S)}
    (hruns : DelayedPair.Runs ctx ⟨(⟨socket, { lastSeen := t1, lastSend := t2 }⟩, []),
      (⟨socket', { lastSeen := t3, lastSend := t4 }⟩, [])⟩ evs pair) :
    ReadsOnly (fun channel => evs.flatMap (writtenByPeer channel)) pair.client.1.inner ∧
    ReadsOnly (fun channel => evs.flatMap (writtenByClient channel)) pair.peer.1.inner ∧
    (FewPackets pair.client.2 → FewPackets pair.peer.2 →
      pair.client.1.inner.orderedRecvQueue <:+: evs.flatMap (writtenByPeer (.reliable true)) ∧
      pair.peer.1.inner.orderedRecvQueue <:+: evs.flatMap (writtenByClient (.reliable true))) := by
  obtain ⟨client, peer, hj, hc, hp, -, -⟩ :=
    hruns.linked hS hR (DelayedPair.linked_start hempty hempty' t1 t2 t3 t4)
  obtain ⟨hclient, hpeer⟩ := hj.readsOnly hS hR
  rw [hc.inner] at hclient
  rw [hp.inner] at hpeer
  refine ⟨hclient, hpeer, fun hfew hfew' => ?_⟩
  have hordered := hj.ordered hS hR hfew hfew'
  rwa [hc.inner, hp.inner] at hordered

end Both

/-! ## A datagram that is held back -/

def lateSocket : DelayingSocket Unit := { socket := pairSocket, fakeDelay := (10, 20) }

def heldBack (ds : List Bytes) : DelayEvent Bool :=
  .receive ⟨fun _ _ => 0, fun _ => 0⟩ (ds.map fun d => ⟨⟨d, 0⟩, 15, 0⟩)

def lateEnv : DelayEnv := ⟨fun _ _ => fromMillis 15, fun _ => fromMillis 15⟩

def readLate : DelayEvent Bool := .receive lateEnv []

/-- What a communicator sends comes in at one with a fake delay. -/
def late (evs : List Bytes → List (DelayEvent Bool)) :
    Res (List Bytes × DelayingCommunicator Unit Bool Bool × List (Sent Bool)) := do
  let start : UdpCommunicator Bool Bool := ⟨pairSocket, { lastSeen := 0, lastSend := 0 }⟩
  let sent ← UdpCommunicator.run (crcContext 1 true) (start, [])
    [.calls [.writeOrdered true], .send (System.envAt Bool 0)]
  let st ← DelayingCommunicator.run (crcContext 1 true)
    (⟨lateSocket, { lastSeen := 0, lastSend := 0 }⟩, []) (evs (sent.2.flatMap handed))
  pure (sent.2.flatMap handed, st)

theorem late_run {evs : List Bytes → List (DelayEvent Bool)}
    {r : List Bytes × DelayingCommunicator Unit Bool Bool × List (Sent Bool)}
    (h : late evs = .ok r) : DelayingCommunicator.run (crcContext 1 true)
      (⟨lateSocket, { lastSeen := 0, lastSend := 0 }⟩, []) (evs r.1) = .ok (r.2.1, r.2.2) := by
  obtain ⟨sent, -, h⟩ := Outcome.bind_eq_ok.mp h
  obtain ⟨st, hst, h⟩ := Outcome.bind_eq_ok.mp h
  cases h
  exact hst

theorem late_heldBack : (late fun ds => [heldBack ds]).isOkAnd (fun r =>
    !r.2.1.held.isEmpty && r.2.1.held.all fun d =>
      (checkReceived (R := Bool) (crcContext 1 true) d).returns) = true := by decide +kernel

theorem late_readLate : (late fun ds => [heldBack ds, readLate]).isOkAnd (fun r =>
    r.2.1.held.isEmpty && r.2.1.inner.orderedRecvQueue == [true]) = true := by decide +kernel

theorem delayed_plain_late : ∃ (ds : List Bytes) (com : DelayingCommunicator Unit Bool Bool)
    (sent : List (Sent Bool)), com.inner.orderedRecvQueue = [true] ∧
    ∃ (evs : List (ComEvent Bool)) (plain : UdpCommunicator Bool Bool),
      UdpCommunicator.run (crcContext 1 true)
        (⟨lateSocket.socket, { lastSeen := 0, lastSend := 0 }⟩, []) evs = .ok (plain, sent) ∧
      plain.inner = com.inner ∧
      evs.filter (fun e => !e.isReceive) = [heldBack ds, readLate].flatMap DelayEvent.asked ∧
      (evs.flatMap ComEvent.datagrams ++ com.held).Perm
        ([heldBack ds, readLate].flatMap DelayEvent.arrived) := by
  obtain ⟨⟨ds, com, sent⟩, hr, hend⟩ := Outcome.isOkAnd_iff.mp late_readLate
  have hqueue := eq_of_beq (Bool.and_eq_true_iff.mp hend).2
  exact ⟨ds, com, sent, hqueue, delayed_plain rfl (late_run hr)⟩

theorem receive_due_late : ∃ com com' : DelayingCommunicator Unit Bool Bool, com.held ≠ [] ∧
    com.receive (crcContext 1 true) lateEnv [] = .ok com' ∧
    ∀ packet ∈ com'.socket.fakeDelayedBuffer, fromMillis 15 < packet.instant := by
  obtain ⟨⟨ds, com, sent⟩, hr, hend⟩ := Outcome.isOkAnd_iff.mp late_heldBack
  obtain ⟨hne, hall⟩ := Bool.and_eq_true_iff.mp hend
  have hread : ∀ d ∈ com.held ++ ([] : List Delayable).map fun d => d.datagram.take MAX_PACKET_LEN,
      Readable Bool Bool (crcContext 1 true) d := by
    intro d hd
    rw [List.map_nil, List.append_nil] at hd
    exact readable_of_returns (List.all_eq_true.mp hall d hd)
  obtain ⟨com', hcom, hdue⟩ := receive_due rfl rfl (late_run hr) hread
  refine ⟨com, com', ?_, hcom, hdue _ fun _ _ => Int.le_refl _⟩
  rintro hnil
  simp [hnil] at hne

def lateStart : DelayingCommunicator Unit Bool Bool × List (Sent Bool) :=
  (⟨lateSocket, { lastSeen := 0, lastSend := 0 }⟩, [])

def lateBothEvents (ds : List Bytes) : List (DelayEvent Bool ⊕ DelayEvent Bool) :=
  [.inl (.calls [.writeOrdered true]), .inl (.send (System.envAt Bool 0)), .inr (heldBack ds),
    .inr readLate]

/-- One end writes and sends, the other holds it back and reads it later. -/
def lateBoth : Res (List Bytes × DelayedPair Bool Bool) := do
  let wrote ← DelayingCommunicator.step (crcContext 1 true) lateStart (.calls [.writeOrdered true])
  let sent ← DelayingCommunicator.step (crcContext 1 true) wrote (.send (System.envAt Bool 0))
  let held ← DelayingCommunicator.step (crcContext 1 true) lateStart
    (heldBack (sent.2.flatMap handed))
  let read ← DelayingCommunicator.step (crcContext 1 true) held readLate
  pure (sent.2.flatMap handed, ⟨sent, read⟩)

theorem lateBoth_ok : lateBoth.isOkAnd (fun r => decide (FewPackets r.2.client.2 ∧
    FewPackets r.2.peer.2 ∧ r.2.peer.1.inner.orderedRecvQueue = [true] ∧
    ∀ d ∈ r.1, d.length ≤ MAX_PACKET_LEN)) = true := by decide +kernel

theorem lateBoth_runs {r : List Bytes × DelayedPair Bool Bool} (h : lateBoth = .ok r)
    (hlen : ∀ d ∈ r.1, d.length ≤ MAX_PACKET_LEN) :
    DelayedPair.Runs (crcContext 1 true) ⟨lateStart, lateStart⟩ (lateBothEvents r.1) r.2 := by
  obtain ⟨wrote, h1, h⟩ := Outcome.bind_eq_ok.mp h
  obtain ⟨sent, h2, h⟩ := Outcome.bind_eq_ok.mp h
  obtain ⟨held, h3, h⟩ := Outcome.bind_eq_ok.mp h
  obtain ⟨read, h4, h⟩ := Outcome.bind_eq_ok.mp h
  cases h
  have hwrite : DelayedPair.Step (crcContext 1 true) ⟨lateStart, lateStart⟩
      (.inl (.calls [.writeOrdered true])) ⟨wrote, lateStart⟩ :=
    .client (fun d hd => absurd hd List.not_mem_nil) h1
  have hsend : DelayedPair.Step (crcContext 1 true) ⟨wrote, lateStart⟩
      (.inl (.send (System.envAt Bool 0))) ⟨sent, lateStart⟩ :=
    .client (fun d hd => absurd hd List.not_mem_nil) h2
  have hhold : DelayedPair.Step (crcContext 1 true) ⟨sent, lateStart⟩
      (.inr (heldBack (sent.2.flatMap handed))) ⟨sent, held⟩ := by
    refine .peer (fun d hd => ?_) h3
    simp only [heldBack, DelayEvent.arrived, List.map_map] at hd
    obtain ⟨d', hd', rfl⟩ := List.mem_map.mp hd
    change d'.take MAX_PACKET_LEN ∈ sent.2.flatMap handed
    rw [List.take_of_length_le (hlen d' hd')]
    exact hd'
  have hread : DelayedPair.Step (crcContext 1 true) ⟨sent, held⟩ (.inr readLate) ⟨sent, read⟩ :=
    .peer (fun d hd => absurd hd List.not_mem_nil) h4
  exact (((DelayedPair.Runs.nil.snoc hwrite).snoc hsend).snoc hhold).snoc hread

theorem delayed_connection_late : ∃ (ds : List Bytes) (pair : DelayedPair Bool Bool),
    pair.peer.1.inner.orderedRecvQueue = [true] ∧
    ReadsOnly (fun channel => (lateBothEvents ds).flatMap (writtenByPeer channel))
      pair.client.1.inner ∧
    ReadsOnly (fun channel => (lateBothEvents ds).flatMap (writtenByClient channel))
      pair.peer.1.inner ∧
    pair.client.1.inner.orderedRecvQueue <:+:
      (lateBothEvents ds).flatMap (writtenByPeer (.reliable true)) ∧
    pair.peer.1.inner.orderedRecvQueue <:+:
      (lateBothEvents ds).flatMap (writtenByClient (.reliable true)) := by
  obtain ⟨⟨ds, pair⟩, hr, hend⟩ := Outcome.isOkAnd_iff.mp lateBoth_ok
  obtain ⟨hfew, hfew', hqueue, hlen⟩ := of_decide_eq_true hend
  have hfaithful : (crcLink (M := Bool) (crcContext 1 true)).Faithful :=
    crcLink_faithful _ fun _ => Nat.one_pos
  obtain ⟨hclient, hpeer, hordered⟩ :=
    delayed_connection hfaithful hfaithful rfl rfl (lateBoth_runs hr hlen)
  exact ⟨ds, pair, hqueue, hclient, hpeer, hordered hfew hfew'⟩

end MiniUdp
