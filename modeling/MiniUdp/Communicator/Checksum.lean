import MiniUdp.Communicator.Receive
import MiniUdp.Lib.Crc

/-!
# The checksum

The checksum keeps apart what different protocol versions send and finds every
change within four consecutive bytes (`readPacket_rejects`). The register of
the CRC takes a byte in as eight bits (`crcByte_eq_feed`), so both follow from
the laws of the register.
-/

namespace MiniUdp

/-- The bits of a byte, the most significant first. -/
def bitsOf (byte : UInt8) : List Bool := (List.range 8).map fun i => byte.toNat.testBit (7 - i)

@[simp] theorem length_bitsOf (byte : UInt8) : (bitsOf byte).length = 8 := rfl

theorem getD_bitsOf (byte : UInt8) {i : Nat} (h : i < 8) :
    (bitsOf byte).getD i false = byte.toNat.testBit (7 - i) := by
  rw [bitsOf, List.getD_eq_getElem?_getD, List.getElem?_map, List.getElem?_range h]
  rfl

theorem bitsOf_injective : Function.Injective bitsOf := by
  intro a b h
  refine UInt8.toNat_inj.mp (Nat.eq_of_testBit_eq fun i => ?_)
  by_cases hi : i < 8
  · have ha := getD_bitsOf a (show 7 - i < 8 by omega)
    have hb := getD_bitsOf b (show 7 - i < 8 by omega)
    have e : 7 - (7 - i) = i := by omega
    rw [e] at ha hb
    rw [← ha, ← hb, h]
  · have hpow : (2 : Nat) ^ 8 ≤ 2 ^ i := Nat.pow_le_pow_right (by decide) (by omega)
    rw [Nat.testBit_lt_two_pow (a.toNat_lt.trans_le hpow),
      Nat.testBit_lt_two_pow (b.toNat_lt.trans_le hpow)]

theorem length_flatMap_bitsOf (bytes : Bytes) : (bytes.flatMap bitsOf).length = 8 * bytes.length := by
  induction bytes with
  | nil => rfl
  | cons b bytes ih => rw [List.flatMap_cons, List.length_append, ih, length_bitsOf,
      List.length_cons]; omega

theorem flatMap_bitsOf_injective {a b : Bytes} (hlen : a.length = b.length)
    (h : a.flatMap bitsOf = b.flatMap bitsOf) : a = b := by
  induction a generalizing b with
  | nil => exact (List.length_eq_zero_iff.mp hlen.symm).symm
  | cons x a ih =>
    cases b with
    | nil => cases hlen
    | cons y b =>
      rw [List.flatMap_cons, List.flatMap_cons] at h
      obtain ⟨hx, hrest⟩ := List.append_inj h (by rw [length_bitsOf, length_bitsOf])
      rw [bitsOf_injective hx, ih (Nat.succ.inj hlen) hrest]

/-! ## The register -/

theorem and_msb_ne_zero (crc : UInt32) : (crc &&& 0x80000000 != 0) = crc.toBitVec.msb := by
  have hbit : ∀ i, (crc &&& 0x80000000).toBitVec.getLsbD i =
      (crc.toBitVec.getLsbD i && decide (i = 31)) := fun i => by
    have hmask : (0x80000000 : UInt32).toBitVec = BitVec.intMin 32 := rfl
    rw [UInt32.toBitVec_and, hmask, BitVec.getLsbD_and, BitVec.getLsbD_intMin]
    by_cases h : i = 31
    · simp [h]
    · have : ¬ i + 1 = 32 := by omega
      simp [h, this]
  have hzero : crc &&& 0x80000000 = 0 ↔ crc.toBitVec.msb = false := by
    rw [BitVec.msb_eq_getLsbD_last]
    constructor
    · intro h
      have h31 := hbit 31
      rw [h] at h31
      simpa using h31.symm
    · intro h
      refine UInt32.toBitVec_inj.mp (BitVec.eq_of_getLsbD_eq fun i hi => ?_)
      rw [hbit]
      by_cases e : i = 31
      · rw [e, h]
        rfl
      · simp [e]
  rw [bne, Bool.eq_iff_iff, Bool.not_eq_true', beq_eq_false_iff_ne, Ne, hzero,
    Bool.not_eq_false]

theorem crcBit_eq_shift (poly crc : UInt32) :
    (if crc &&& 0x80000000 != 0 then (crc <<< 1) ^^^ poly else crc <<< 1).toBitVec =
      Crc.shift poly.toBitVec crc.toBitVec := by
  rw [and_msb_ne_zero, Crc.shift]
  cases crc.toBitVec.msb <;> simp

theorem pack_bitsOf (byte : UInt8) :
    (Crc.pack (bitsOf byte) : BitVec 32) = (byte.toUInt32 <<< 24).toBitVec := by
  refine BitVec.eq_of_getLsbD_eq fun i hi => ?_
  have hshift : (byte.toUInt32 <<< 24).toBitVec = byte.toBitVec.setWidth 32 <<< 24 := by simp
  rw [hshift, Crc.getLsbD_pack, BitVec.getLsbD_shiftLeft, BitVec.getLsbD_setWidth]
  by_cases hlow : i < 24
  · have hge : ¬ 32 - 1 - i < 8 := by omega
    rw [List.getD_eq_getElem?_getD, List.getElem?_eq_none (by rw [length_bitsOf]; omega)]
    simp [hlow]
  · have e : 7 - (32 - 1 - i) = i - 24 := by omega
    have hlt : i - 24 < 32 := by omega
    rw [getD_bitsOf byte (by omega), e]
    simp [hi, hlow, hlt, BitVec.getLsbD]

theorem crcByte_eq_feed (poly crc : UInt32) (byte : UInt8) :
    (crcByte poly crc byte).toBitVec = Crc.feed poly.toBitVec crc.toBitVec (bitsOf byte) := by
  have hsteps : ∀ (l : List Nat) (c : UInt32), (l.foldl (fun crc _ =>
      if crc &&& (0x80000000 : UInt32) != 0 then (crc <<< 1) ^^^ poly else crc <<< 1)
        c).toBitVec = (Crc.shift poly.toBitVec)^[l.length] c.toBitVec := by
    intro l
    induction l with
    | nil => exact fun _ => rfl
    | cons i l ih =>
      intro c
      rw [List.foldl_cons, ih, crcBit_eq_shift, List.length_cons, Function.iterate_succ_apply]
  have hle : (bitsOf byte).length ≤ 32 := show 8 ≤ 32 by decide
  rw [Crc.feed_eq_iterate _ _ hle, pack_bitsOf, crcByte, hsteps, UInt32.toBitVec_xor]
  rfl

theorem foldl_crcByte_eq_feed (poly crc : UInt32) (bytes : Bytes) :
    (bytes.foldl (crcByte poly) crc).toBitVec =
      Crc.feed poly.toBitVec crc.toBitVec (bytes.flatMap bitsOf) := by
  induction bytes generalizing crc with
  | nil => rfl
  | cons b bytes ih =>
    rw [List.foldl_cons, ih, crcByte_eq_feed, List.flatMap_cons, Crc.feed_append]

namespace MiniUdpContext

/-- What is relied on of the crc crate. -/
def StandardCrc (ctx : MiniUdpContext) : Prop :=
  ∀ bytes, ctx.crc bytes = crc32 ctx.CRC_ALGORITHM bytes

variable {ctx ctx' : MiniUdpContext}

theorem poly_constant : (0x04c11db7 : UInt32).toBitVec.getLsbD 0 = true := by decide

/-- Equal checksums come from equal registers. -/
theorem StandardCrc.feed_eq (h : ctx.StandardCrc) (h' : ctx'.StandardCrc) {a b : Bytes}
    (heq : ctx.crc a = ctx'.crc b) :
    Crc.feed (0x04c11db7 : UInt32).toBitVec ctx.PROTOCOL_VERSION.toBitVec (a.flatMap bitsOf) =
      Crc.feed (0x04c11db7 : UInt32).toBitVec ctx'.PROTOCOL_VERSION.toBitVec
        (b.flatMap bitsOf) := by
  rw [h, h', crc32, crc32] at heq
  have hfold := (UInt32.xor_left_inj _).mp heq
  rw [← foldl_crcByte_eq_feed, ← foldl_crcByte_eq_feed]
  exact congrArg UInt32.toBitVec hfold

/-- Different versions give the same bytes different checksums. -/
theorem StandardCrc.version_eq (h : ctx.StandardCrc) (h' : ctx'.StandardCrc) {body : Bytes}
    (heq : ctx.crc body = ctx'.crc body) : ctx.PROTOCOL_VERSION = ctx'.PROTOCOL_VERSION :=
  UInt32.toBitVec_inj.mp (Crc.feed_injective poly_constant _ (h.feed_eq h' heq))

/-- Up to four consecutive bytes are determined by the rest of the message and the checksum. -/
theorem StandardCrc.window_eq (h : ctx.StandardCrc) {before window window' after : Bytes}
    (hlen : window'.length = window.length) (h4 : window.length ≤ 4)
    (heq : ctx.crc (before ++ window ++ after) = ctx.crc (before ++ window' ++ after)) :
    window' = window := by
  have hfeed := h.feed_eq h heq
  simp only [List.flatMap_append] at hfeed
  refine (flatMap_bitsOf_injective hlen.symm (Crc.feed_burst poly_constant _ ?_ ?_ hfeed)).symm
  · rw [length_flatMap_bitsOf, length_flatMap_bitsOf, hlen]
  · rw [length_flatMap_bitsOf]
    omega

end MiniUdpContext

/-! ## The gate -/

/-- The bytes of a packet behind their checksum. -/
def withCrc (ctx : MiniUdpContext) (body : Bytes) : Bytes := toLe 4 (ctx.crc body).toNat ++ body

/-- What goes out for a packet is of this form. -/
theorem writeDatagram_withCrc {M : Type} [ByteRepr M] {ctx : MiniUdpContext} {packet : Packet M}
    {buf buf' : DataBuffer} {d : Bytes} (h : writeDatagram ctx packet buf = (buf', .ok d)) :
    ∃ body, d = withCrc ctx body ∧ 4 + body.length ≤ MAX_PACKET_LEN := by
  unfold writeDatagram at h
  generalize packet.writeToBytes (buf.bytes.drop 4) = written at h
  obtain ⟨body, _ | e | - | -⟩ := written
  · simp only at h
    generalize buf.overwrite (buf.bytes.take 4 ++ body) = buf1 at h
    generalize hslice : sliceOf buf1.bytes 4 (4 + packet.byteLen) = slice at h
    have hbuf := buf1.length_eq
    cases slice with
    | ok written =>
      simp only [Prod.mk.injEq, Outcome.ok.injEq] at h
      unfold sliceOf at hslice
      split at hslice
      · rename_i hle
        have hwritten : (buf1.bytes.drop 4).take packet.byteLen = written := by
          rw [← Outcome.ok.inj hslice, List.drop_take, Nat.add_sub_cancel_left]
        have hcrc : (toLe 4 (ctx.crc written).toNat).length = 4 := length_toLe 4 _
        refine ⟨written, ?_, ?_⟩
        · rw [← h.2, DataBuffer.bytes_overwrite _ (by rw [hcrc]; decide), hcrc,
            List.take_append, hcrc, Nat.add_sub_cancel_left, hwritten,
            List.take_of_length_le (by omega), withCrc]
        · rw [← hwritten, List.length_take, List.length_drop]
          omega
      · cases hslice
    | _ => cases (Prod.mk.inj h).2
  all_goals cases (Prod.mk.inj h).2

/-- At this end the datagram changes nothing, in whatever state it comes in. -/
def Rejects (S R : Type) [ByteRepr R] (ctx : MiniUdpContext) (d : Bytes) : Prop :=
  ∀ (com : InnerUdpCommunicator S R) (buf : DataBuffer) (now : Instant),
    com.readPacket ctx d.length (buf.overwrite d) now = .ok com

section Gate

variable {S R : Type} [ByteRepr R] {ctx ctx' : MiniUdpContext}

theorem rejects_of_crc_ne (hdebug : ctx.debug = false) {head body : Bytes}
    (hhead : head.length = 4) (hlen : 4 + body.length ≤ MAX_PACKET_LEN)
    (hcrc : head ≠ toLe 4 (ctx.crc body).toNat) : Rejects S R ctx (head ++ body) := by
  intro com buf now
  have hd : (head ++ body).length ≤ MAX_PACKET_LEN := by rw [List.length_append]; omega
  have htake : ((buf.overwrite (head ++ body)).bytes).take 4 = head := by
    rw [DataBuffer.bytes_overwrite _ hd, List.append_assoc, List.take_left' hhead]
  have hslice : sliceOf (buf.overwrite (head ++ body)).bytes 4 (head ++ body).length =
      .ok body := by
    have hbuf := (buf.overwrite (head ++ body)).length_eq
    rw [sliceOf, if_pos ⟨by rw [List.length_append]; omega, by omega⟩,
      DataBuffer.bytes_overwrite _ hd, List.take_left, List.drop_left' hhead]
  have hne : (ctx.crc body != UInt32.ofNat (fromLe head)) = true := by
    rw [bne_iff_ne]
    intro h
    have hlt : fromLe head < 2 ^ 32 := by simpa [hhead] using fromLe_lt head
    refine hcrc ?_
    rw [h, UInt32.toNat_ofNat', Nat.mod_eq_of_lt hlt, ← hhead, toLe_fromLe]
  unfold InnerUdpCommunicator.readPacket checkDatagram
  simp only [hdebug, htake, hslice, hne, if_true, Bool.false_eq_true, if_false, Outcome.pure_def,
    Outcome.bind_ok]

/-- A datagram of another protocol version is rejected, and so is every change of a datagram of
the same version within the checksum or within four consecutive bytes of the packet. -/
theorem readPacket_rejects (h : ctx.StandardCrc) (h' : ctx'.StandardCrc)
    (hdebug : ctx'.debug = false) {body : Bytes} (hlen : 4 + body.length ≤ MAX_PACKET_LEN) :
    (ctx.PROTOCOL_VERSION ≠ ctx'.PROTOCOL_VERSION → Rejects S R ctx' (withCrc ctx body)) ∧
    (ctx.PROTOCOL_VERSION = ctx'.PROTOCOL_VERSION →
      (∀ head, head.length = 4 → head ≠ toLe 4 (ctx.crc body).toNat →
        Rejects S R ctx' (head ++ body)) ∧
      ∀ before window window' after, body = before ++ window ++ after →
        window'.length = window.length → window.length ≤ 4 → window' ≠ window →
        Rejects S R ctx' (toLe 4 (ctx.crc body).toNat ++ (before ++ window' ++ after))) := by
  have hinj : ∀ {a b : Bytes}, toLe 4 (ctx.crc a).toNat = toLe 4 (ctx'.crc b).toNat →
      ctx.crc a = ctx'.crc b := fun {a b} e => by
    have := congrArg fromLe e
    rw [fromLe_toLe_of_lt (show _ < 256 ^ 4 from (ctx.crc a).toNat_lt),
      fromLe_toLe_of_lt (show _ < 256 ^ 4 from (ctx'.crc b).toNat_lt)] at this
    exact UInt32.toNat_inj.mp this
  have hcrc_eq : ctx.PROTOCOL_VERSION = ctx'.PROTOCOL_VERSION → ∀ bytes,
      ctx.crc bytes = ctx'.crc bytes := fun hversion bytes => by
    rw [h, h', MiniUdpContext.CRC_ALGORITHM, MiniUdpContext.CRC_ALGORITHM, hversion]
  refine ⟨fun hne => ?_, fun hversion => ⟨fun head hhead hcrc => ?_, ?_⟩⟩
  · exact rejects_of_crc_ne hdebug (length_toLe 4 _) hlen fun e => hne (h.version_eq h' (hinj e))
  · refine rejects_of_crc_ne hdebug hhead hlen ?_
    rwa [← hcrc_eq hversion]
  · rintro before window window' after rfl hsame h4 hne
    refine rejects_of_crc_ne hdebug (length_toLe 4 _) ?_ fun e => hne ?_
    · simp only [List.length_append, hsame] at hlen ⊢
      exact hlen
    · have heq := hinj e
      rw [← hcrc_eq hversion] at heq
      exact h.window_eq hsame h4 heq

theorem standardCrc_crcContext (version : UInt32) (debug : Bool) :
    (crcContext version debug).StandardCrc := fun _ => rfl

theorem readPacket_rejects_two_versions :
    Rejects Bool Bool (crcContext 2 false) (withCrc (crcContext 1 false) [7, 8, 9]) ∧
    Rejects Bool Bool (crcContext 1 false)
      (toLe 4 ((crcContext 1 false).crc [7, 8, 9]).toNat ++ [7, 0, 9]) := by
  have hlen : 4 + ([7, 8, 9] : Bytes).length ≤ MAX_PACKET_LEN := by decide
  have h1 := standardCrc_crcContext 1 false
  exact ⟨(readPacket_rejects h1 (standardCrc_crcContext 2 false) rfl hlen).1 (by decide),
    ((readPacket_rejects h1 h1 rfl hlen).2 rfl).2 [7] [8] [0] [9] rfl rfl (by decide)
      (by decide)⟩

end Gate

end MiniUdp
