import MiniUdp.Communicator.Receive

/-!
# Datagrams from anywhere

Any host can send a datagram with any content, so these results are about every
state and every datagram: which datagrams `read_packet` survives and ignores
(`readPacket_harmless_iff`), and which numbers it takes for new and for old
(`newer_accepted_iff`, `late_dropped_iff`). The test for a too old packet
compares plain values outside a span of 64 numbers, so near the wrap of the
numbers it takes new packets for old ones and old ones for new.
-/

namespace MiniUdp

open Serial

variable {S R : Type}

namespace InnerUdpCommunicator

/-! ## Reachable states -/

/-- The states an endpoint can get into, whatever it is sent. -/
inductive Reachable [ByteRepr S] [ByteRepr R] (ctx : MiniUdpContext) :
    InnerUdpCommunicator S R → Prop where
  | start (lastSeen lastSend : Instant) : Reachable ctx { lastSeen, lastSend }
  | write {com} (m : S) : Reachable ctx com → Reachable ctx (com.write m)
  | writeReliable {com} (m : S) : Reachable ctx com → Reachable ctx (com.writeReliable m)
  | writeOrdered {com} (m : S) : Reachable ctx com → Reachable ctx (com.writeOrdered m)
  | writeHeartbeat {com} : Reachable ctx com → Reachable ctx com.writeHeartbeat
  | read {com} : Reachable ctx com → Reachable ctx com.read.2
  | readOrdered {com} : Reachable ctx com → Reachable ctx com.readOrdered.2
  | send {com com' env socket built st error} : Reachable ctx com →
      com.send (crcLink ctx) env socket = .ok (com', built, st, error) → Reachable ctx com'
  | readPacket {com com' n buf now} : Reachable ctx com →
      com.readPacket ctx n buf now = .ok com' → Reachable ctx com'

/-- The buffer after receiving the datagram of a packet. -/
def holding [ByteRepr R] [LawfulByteRepr R] (ctx : MiniUdpContext) (packet : Packet R) :
    DataBuffer := emptyBuffer.overwrite (datagram ctx packet)

theorem check_holding [ByteRepr R] [LawfulByteRepr R] (ctx : MiniUdpContext) {packet : Packet R}
    (hcount : packet.messages.length < 2 ^ 32)
    (hlen : Packet.dataLen packet.messages ≤ MAX_PACKET_DATA_LEN) :
    checkDatagram ctx (4 + packet.byteLen) (holding ctx packet) = .ok (some packet) := by
  refine checkDatagram_eq ctx packet hcount ?_
  have hd := length_datagram ctx packet
  rw [holding, DataBuffer.bytes_overwrite _ (hd ▸ byteLen_le hlen), ← hd, List.take_left]

theorem Reachable.receive [ByteRepr S] [ByteRepr R] [LawfulByteRepr R] {ctx : MiniUdpContext}
    {com : InnerUdpCommunicator S R} {packet : Packet R} (h : Reachable ctx com)
    (hcount : packet.messages.length < 2 ^ 32)
    (hlen : Packet.dataLen packet.messages ≤ MAX_PACKET_DATA_LEN) (now : Instant) :
    Reachable ctx (com.onPacket now packet) :=
  h.readPacket (readPacket_of_check com now (check_holding ctx hcount hlen))

/-! ## Malformed datagrams -/

section Malformed

variable [ByteRepr R]

/-- The bytes `read_packet` takes for the packet. -/
def body (n : Nat) (buf : DataBuffer) : Bytes := (buf.bytes.take n).drop 4

/-- Does the datagram pass the CRC check? -/
def passesCrc (ctx : MiniUdpContext) (n : Nat) (buf : DataBuffer) : Bool :=
  ctx.crc (body n buf) == UInt32.ofNat (fromLe (buf.bytes.take 4))

/-- `read_packet` returns, and a datagram that is no packet changes nothing. -/
def Harmless (ctx : MiniUdpContext) (com : InnerUdpCommunicator S R) (n : Nat) (buf : DataBuffer)
    (now : Instant) : Prop :=
  ∃ com', com.readPacket ctx n buf now = .ok com' ∧
    (n < PACKET_HEADER_LEN ∨ passesCrc ctx n buf = false ∨
      (∀ packet : Packet R, Packet.fromBytes (body n buf) ≠ .ok packet) → com' = com)

theorem readPacket_short (ctx : MiniUdpContext) (com : InnerUdpCommunicator S R) {n : Nat}
    (buf : DataBuffer) (now : Instant) (h : n < 4) : com.readPacket ctx n buf now = .panic := by
  have hs : sliceOf buf.bytes 4 n = .panic := if_neg (by omega)
  unfold readPacket checkDatagram
  cases ctx.debug <;> simp [hs]

/-- With at least four bytes there are three decisions: the decode for the log, the checksum and
the decode. -/
theorem readPacket_eq (ctx : MiniUdpContext) (com : InnerUdpCommunicator S R) {n : Nat}
    {buf : DataBuffer} (now : Instant) (h4 : 4 ≤ n) (hn : n ≤ MAX_PACKET_LEN) :
    com.readPacket ctx n buf now =
      match (Packet.fromBytes (body n buf) : Res (Packet R)) with
      | .ok packet => .ok (if passesCrc ctx n buf then com.onPacket now packet else com)
      | .err _ => if ctx.debug then .panic else .ok com
      | .panic => if ctx.debug || passesCrc ctx n buf then .panic else .ok com
      | .hang => if ctx.debug || passesCrc ctx n buf then .hang else .ok com := by
  have hs : sliceOf buf.bytes 4 n = .ok (body n buf) := if_pos ⟨h4, by rw [buf.length_eq]; exact hn⟩
  unfold readPacket checkDatagram passesCrc
  rw [hs]
  cases ctx.debug <;> cases hp : (Packet.fromBytes (body n buf) : Res (Packet R)) <;>
    by_cases hc : ctx.crc (body n buf) = UInt32.ofNat (fromLe (buf.bytes.take 4)) <;>
    simp [hc, hp]

theorem length_body_lt {n : Nat} {buf : DataBuffer} (h : n < PACKET_HEADER_LEN) :
    (body n buf).length < 20 := by
  have e : PACKET_HEADER_LEN = 24 := rfl
  rw [body, List.length_drop, List.length_take]
  omega

/-- `read_packet` survives a datagram and ignores it if it is no packet, just when the datagram has
at least four bytes, decodes if the `debug` feature is on, and does not overrun its bytes if it
passes the CRC check. -/
theorem readPacket_harmless_iff (ctx : MiniUdpContext) (com : InnerUdpCommunicator S R) {n : Nat}
    (buf : DataBuffer) (now : Instant) (hn : n ≤ MAX_PACKET_LEN)
    (total : ∀ bytes, (ByteRepr.fromBytes bytes : Res R).returns = true) :
    Harmless ctx com n buf now ↔ 4 ≤ n ∧
      (ctx.debug = true → ∃ packet : Packet R, Packet.fromBytes (body n buf) = .ok packet) ∧
      (passesCrc ctx n buf = true → ¬ Packet.Overruns R (body n buf)) := by
  by_cases h4 : 4 ≤ n
  · have hret := Packet.fromBytes_returns_iff total (body n buf)
    have hshort : n < PACKET_HEADER_LEN → (Packet.fromBytes (body n buf) : Res (Packet R)) =
        .err .sliceTooShort := fun h => Packet.fromBytes_short (length_body_lt h)
    rw [Harmless, readPacket_eq ctx com now h4 hn, ← hret]
    cases hp : (Packet.fromBytes (body n buf) : Res (Packet R)) with
    | ok packet =>
      have hlong : ¬ n < PACKET_HEADER_LEN := fun h => by
        have := hshort h
        rw [hp] at this; cases this
      cases passesCrc ctx n buf <;> simp [h4, hlong]
    | err e => cases ctx.debug <;> cases passesCrc ctx n buf <;> simp [h4]
    | panic => cases ctx.debug <;> cases passesCrc ctx n buf <;> simp [h4]
    | hang => cases ctx.debug <;> cases passesCrc ctx n buf <;> simp [h4]
  · rw [Harmless, readPacket_short ctx com buf now (by omega)]
    simp [h4]

/-- The state a connection starts in. -/
def fresh : InnerUdpCommunicator Bool Bool := { lastSeen := 0, lastSend := 0 }

theorem fromBytes_bool_returns (bytes : Bytes) :
    (ByteRepr.fromBytes bytes : Res Bool).returns = true := by
  cases bytes <;> rfl

theorem readPacket_harmless_iff_packet :
    Harmless (crcContext 0 true) fresh 4 emptyBuffer 0 ↔ 4 ≤ 4 ∧
      (true = true → ∃ packet : Packet Bool, Packet.fromBytes (body 4 emptyBuffer) = .ok packet) ∧
      (passesCrc (crcContext 0 true) 4 emptyBuffer = true →
        ¬ Packet.Overruns Bool (body 4 emptyBuffer)) :=
  readPacket_harmless_iff (crcContext 0 true) fresh emptyBuffer 0 (by decide) fromBytes_bool_returns

/-- A datagram without any bytes makes the receiver panic. -/
theorem empty_datagram_harmful :
    Reachable (crcContext 0 false) fresh ∧
      fresh.readPacket (crcContext 0 false) 0 emptyBuffer 0 = .panic ∧
      ¬ Harmless (crcContext 0 false) fresh 0 emptyBuffer 0 := by
  have h := readPacket_short (crcContext 0 false) fresh emptyBuffer 0 (show 0 < 4 by decide)
  refine ⟨.start 0 0, h, ?_⟩
  rintro ⟨com', h', -⟩
  rw [h] at h'
  cases h'

end Malformed

/-! ## Newer packets and late copies -/

theorem hasReceived_eq_false {com : InnerUdpCommunicator S R} {ordered : Bool} {id : UInt16}
    (h : 32 ≤ (com.newestReceived ordered - id).toNat) : com.hasReceived ordered id = false := by
  cases ordered with
  | false => exact congrArg Option.isSome (RingBuffer.get_eq_none (Nat.not_lt.mpr h))
  | true => exact congrArg Option.isSome (RingBuffer.get_eq_none (Nat.not_lt.mpr h))

/-- Outside the window only the second test decides. -/
theorem accepts_eq {com : InnerUdpCommunicator S R} {packet : Packet R}
    (h : 32 ≤ (com.newestReceived packet.ordered - packet.ack.sequenceId).toNat) :
    com.accepts packet =
      !wrappingGt (com.newestReceived packet.ordered - 31) packet.ack.sequenceId 64 := by
  rw [accepts, isDuplicate_eq, hasReceived_eq_false h, isTooOld_eq, Bool.not_false, Bool.true_and]

/-- The test for a too old packet, for a number `s` newer than the newest `r`: up to 33 ahead it
works, beyond that only while the numbers do not wrap. -/
theorem not_tooOld_iff {r s : UInt16} (h1 : 1 ≤ (s - r).toNat) (h2 : (s - r).toNat < 32768) :
    wrappingGt (r - 31) s 64 = false ↔
      (s - r).toNat ≤ 33 ∨ (r - 31).toNat + 31 + (s - r).toNat < 65536 := by
  have h64 : (64 : UInt16).toNat = 64 := rfl
  have h31 : (31 : UInt16).toNat = 31 := rfl
  have hd : (s - (r - 31)).toNat = (s - r).toNat + 31 := by
    rw [dist_sub_right, h31]; omega
  have hr := toNat_lt' (r - 31); have hs := toNat_lt' s
  have hback := dist_comm s (r - 31)
  rw [← Bool.not_eq_true]
  by_cases near : (s - r).toNat ≤ 33
  · rw [wrappingGt_iff (by rw [h64]; decide) (Or.inr (by omega)), h64]
    omega
  · rw [wrappingGt_far (by rw [h64]; omega) (by rw [h64]; omega)]
    -- the plain values tell which of the two is ahead
    have hplain : s.toNat = ((r - 31).toNat + 31 + (s - r).toNat) % 65536 := by
      have := UInt16.toNat_sub s (r - 31)
      omega
    omega

/-- The same test for a number `s` that has left the window behind `r`. -/
theorem tooOld_iff {r s : UInt16} (h1 : 32 ≤ (r - s).toNat) (h2 : (r - s).toNat < 32768) :
    wrappingGt (r - 31) s 64 = true ↔ (r - s).toNat ≤ 95 ∨ s.toNat < (r - 31).toNat := by
  have h64 : (64 : UInt16).toNat = 64 := rfl
  have h31 : (31 : UInt16).toNat = 31 := rfl
  have hd : (r - 31 - s).toNat = (r - s).toNat - 31 := by
    rw [dist_sub_left, h31]; omega
  have hback := dist_comm (r - 31) s
  by_cases near : (r - s).toNat ≤ 95
  · rw [wrappingGt_iff (by rw [h64]; decide) (Or.inl (by omega)), h64]
    omega
  · rw [wrappingGt_far (by rw [h64]; omega) (by rw [h64]; omega)]
    omega

/-- A packet newer than everything received in its channel is accepted just when it is at most 33
ahead or the numbers from the far end of the window up to its own do not wrap. -/
theorem newer_accepted_iff [ByteRepr R] {ctx : MiniUdpContext} {com : InnerUdpCommunicator S R}
    {n : Nat} {buf : DataBuffer} {packet : Packet R} (now : Instant)
    (hvalid : checkDatagram ctx n buf = .ok (some packet)) (hr : packet.reliable = true)
    (h1 : 1 ≤ (packet.ack.sequenceId - com.newestReceived packet.ordered).toNat)
    (h2 : (packet.ack.sequenceId - com.newestReceived packet.ordered).toNat < 32768) :
    (∃ com', com.readPacket ctx n buf now = .ok com' ∧ com.Accepted packet com') ↔
      (packet.ack.sequenceId - com.newestReceived packet.ordered).toNat ≤ 33 ∨
      (com.newestReceived packet.ordered - 31).toNat + 31 +
        (packet.ack.sequenceId - com.newestReceived packet.ordered).toNat < 65536 := by
  have hout : 32 ≤ (com.newestReceived packet.ordered - packet.ack.sequenceId).toNat := by
    rw [dist_comm packet.ack.sequenceId]; omega
  have hacc := accepts_eq hout
  rw [← not_tooOld_iff h1 h2, ← Bool.not_eq_true', ← hacc, readPacket_of_check com now hvalid]
  constructor
  · rintro ⟨com', h, ha⟩
    cases h
    by_contra hc
    -- a dropped packet leaves the newest number as it was
    have hn := ha.newest
    rw [onPacket_dropped now hr (Bool.eq_false_iff.mpr hc)] at hn
    have : com.newestReceived packet.ordered = packet.ack.sequenceId := hn
    rw [this, dist_self] at h1
    omega
  · intro h
    refine ⟨_, rfl, ?_⟩
    exact onPacket_of_accepts now hr h hout

theorem newer_accepted_iff_numbered :
    (∃ com', fresh.readPacket (crcContext 0 false) 25 (holding (crcContext 0 false) (numbered 5)) 0 =
        .ok com' ∧ fresh.Accepted (numbered 5) com') ↔
      ((5 : UInt16) - 65535).toNat ≤ 33 ∨
      ((65535 : UInt16) - 31).toNat + 31 + ((5 : UInt16) - 65535).toNat < 65536 :=
  newer_accepted_iff 0
    (check_holding (crcContext 0 false) (numbered_count 5) (numbered_dataLen 5)) rfl (by decide)
    (by decide)

/-- A fresh receiver takes packet 33 for an old one. -/
theorem newer_packet_dropped :
    Reachable (crcContext 0 false) fresh ∧
      checkDatagram (crcContext 0 false) 25 (holding (crcContext 0 false) (numbered 33)) =
        .ok (some (numbered 33)) ∧
      ((numbered 33).ack.sequenceId - fresh.newestReceived false).toNat = 34 ∧
      ¬ ∃ com', fresh.readPacket (crcContext 0 false) 25
          (holding (crcContext 0 false) (numbered 33)) 0 = .ok com' ∧
        fresh.Accepted (numbered 33) com' := by
  have hvalid : checkDatagram (crcContext 0 false) 25 (holding (crcContext 0 false) (numbered 33)) =
      .ok (some (numbered 33)) :=
    check_holding (crcContext 0 false) (numbered_count 33) (numbered_dataLen 33)
  refine ⟨.start 0 0, hvalid, by decide, ?_⟩
  rintro ⟨com', h, ha⟩
  rw [readPacket_of_check fresh 0 hvalid,
    onPacket_dropped 0 rfl (by decide +kernel : fresh.accepts (numbered 33) = false)] at h
  cases h
  exact absurd ha.newest (by decide)

/-- A packet whose number has left the window of its channel is dropped just when it is at most 95
behind or the numbers from its own up to the far end of the window do not wrap. -/
theorem late_dropped_iff [ByteRepr R] {ctx : MiniUdpContext} {com : InnerUdpCommunicator S R}
    {n : Nat} {buf : DataBuffer} {packet : Packet R} (now : Instant)
    (hvalid : checkDatagram ctx n buf = .ok (some packet)) (hr : packet.reliable = true)
    (h1 : 32 ≤ (com.newestReceived packet.ordered - packet.ack.sequenceId).toNat)
    (h2 : (com.newestReceived packet.ordered - packet.ack.sequenceId).toNat < 32768) :
    (∃ com', com.readPacket ctx n buf now = .ok com' ∧ com.Dropped com') ↔
      (com.newestReceived packet.ordered - packet.ack.sequenceId).toNat ≤ 95 ∨
      packet.ack.sequenceId.toNat < (com.newestReceived packet.ordered - 31).toNat := by
  have hacc := accepts_eq h1
  rw [← tooOld_iff h1 h2, readPacket_of_check com now hvalid]
  constructor
  · rintro ⟨com', h, hd⟩
    cases h
    by_contra hc
    -- an accepted packet becomes the newest one
    rw [Bool.not_eq_true] at hc
    rw [hc] at hacc
    have hn := (onPacket_of_accepts now hr hacc h1).newest
    rw [hd.newestReceived] at hn
    rw [hn, dist_self] at h1
    omega
  · intro h
    rw [h] at hacc
    exact ⟨_, rfl, now, true, onPacket_dropped now hr hacc⟩

theorem Reachable.receiveNumbered {com : InnerUdpCommunicator Bool Bool} {ctx : MiniUdpContext}
    (h : Reachable ctx com) (ids : List UInt16) :
    Reachable ctx (ids.foldl (fun com id => com.onPacket 0 (numbered id)) com) := by
  induction ids generalizing com with
  | nil => exact h
  | cons id ids ih => exact ih (h.receive (numbered_count id) (numbered_dataLen id) 0)

/-- A receiver once around the numbers: 65500 came in before the last wrap. -/
def lapped : InnerUdpCommunicator Bool Bool :=
  [32, 30000, 60000, 65500, 65535, 32, 100].foldl (fun com id => com.onPacket 0 (numbered id)) fresh

theorem reachable_lapped : Reachable (crcContext 0 false) lapped :=
  (Reachable.start 0 0).receiveNumbered _

theorem late_dropped_iff_numbered :
    (∃ com', lapped.readPacket (crcContext 0 false) 25 (holding (crcContext 0 false) (numbered 50))
        0 = .ok com' ∧ lapped.Dropped com') ↔
      (lapped.newestReceived false - (50 : UInt16)).toNat ≤ 95 ∨
      (50 : UInt16).toNat < (lapped.newestReceived false - 31).toNat :=
  @late_dropped_iff Bool Bool _ _ lapped _ _ (numbered 50) 0
    (check_holding (crcContext 0 false) (numbered_count 50) (numbered_dataLen 50)) rfl
    (by decide +kernel) (by decide +kernel)

/-- A late copy of packet 65500 is delivered a second time and moves the newest number back. -/
theorem late_copy_accepted :
    Reachable (crcContext 0 false) lapped ∧
      checkDatagram (crcContext 0 false) 25 (holding (crcContext 0 false) (numbered 65500)) =
        .ok (some (numbered 65500)) ∧
      (lapped.newestReceived false - (numbered 65500).ack.sequenceId).toNat = 136 ∧
      ¬ ∃ com', lapped.readPacket (crcContext 0 false) 25
          (holding (crcContext 0 false) (numbered 65500)) 0 = .ok com' ∧ lapped.Dropped com' := by
  have hvalid : checkDatagram (crcContext 0 false) 25
      (holding (crcContext 0 false) (numbered 65500)) = .ok (some (numbered 65500)) :=
    check_holding (crcContext 0 false) (numbered_count 65500) (numbered_dataLen 65500)
  refine ⟨reachable_lapped, hvalid, by decide +kernel, ?_⟩
  rintro ⟨com', h, hd⟩
  rw [readPacket_of_check lapped 0 hvalid] at h
  have hn := Dropped.newestReceived (Outcome.ok.inj h ▸ hd) false
  exact absurd hn (by decide +kernel)

end InnerUdpCommunicator

end MiniUdp
