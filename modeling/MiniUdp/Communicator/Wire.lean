import MiniUdp.Communicator.Inner

/-!
# Packets on the wire

What the sending code writes, the receiving code reads back
(`writeDatagram_roundtrip`). For the code above the socket this is all there is
to know of a link: it is `Faithful`.
-/

namespace MiniUdp

variable {M Buf D : Type} [ByteRepr M]

theorem DataBuffer.bytes_overwrite (buf : DataBuffer) {bytes : Bytes}
    (h : bytes.length ≤ MAX_PACKET_LEN) :
    (buf.overwrite bytes).bytes = bytes ++ buf.bytes.drop bytes.length := by
  rw [overwrite, dif_pos h]

/-- The bytes of a datagram: the checksum, little-endian, and the packet. -/
def datagram [LawfulByteRepr M] (ctx : MiniUdpContext) (packet : Packet M) : Bytes :=
  toLe 4 (ctx.crc packet.encode).toNat ++ packet.encode

theorem length_datagram [LawfulByteRepr M] (ctx : MiniUdpContext) (packet : Packet M) :
    (datagram ctx packet).length = 4 + packet.byteLen := by
  simp [datagram, Packet.length_encode]

theorem byteLen_le {packet : Packet M} (h : Packet.dataLen packet.messages ≤ MAX_PACKET_DATA_LEN) :
    4 + packet.byteLen ≤ MAX_PACKET_LEN := by
  simp only [Packet.byteLen, PacketAck.byteLen, MAX_PACKET_LEN, PACKET_HEADER_LEN] at *
  omega

/-- The buffer ends up holding the datagram in front of what it held before. -/
theorem writeDatagram_eq [LawfulByteRepr M] (ctx : MiniUdpContext) (packet : Packet M)
    (buf : DataBuffer) (h : Packet.dataLen packet.messages ≤ MAX_PACKET_DATA_LEN) :
    ∃ buf', writeDatagram ctx packet buf = (buf', .ok (datagram ctx packet)) := by
  have hlen := byteLen_le h
  have hbuf := buf.length_eq
  have henc := Packet.length_encode packet
  -- the packet goes behind the four bytes of the checksum
  have hwrite : packet.writeToBytes (buf.bytes.drop 4) =
      (packet.encode ++ buf.bytes.drop (4 + packet.byteLen), .ok ()) := by
    rw [packet.writes _ (by simp [henc]; omega)]
    simp [henc, List.drop_drop]
  have hmid : (buf.bytes.take 4 ++
      (packet.encode ++ buf.bytes.drop (4 + packet.byteLen))).length = MAX_PACKET_LEN := by
    simp [henc]; omega
  have hbody : (buf.overwrite (buf.bytes.take 4 ++
      (packet.encode ++ buf.bytes.drop (4 + packet.byteLen)))).bytes =
      buf.bytes.take 4 ++ (packet.encode ++ buf.bytes.drop (4 + packet.byteLen)) := by
    rw [DataBuffer.bytes_overwrite _ (by omega), hmid, ← hbuf, List.drop_length, List.append_nil]
  have h4 : (buf.bytes.take 4).length = 4 := by rw [List.length_take]; omega
  have hslice : sliceOf (buf.bytes.take 4 ++
      (packet.encode ++ buf.bytes.drop (4 + packet.byteLen))) 4 (4 + packet.byteLen) =
      .ok packet.encode := by
    rw [sliceOf, if_pos ⟨by omega, by omega⟩]
    simp [List.take_append, h4, henc]
  have hcrc : (toLe 4 (ctx.crc packet.encode).toNat).length ≤ MAX_PACKET_LEN := by
    rw [length_toLe]; decide
  refine ⟨(writeDatagram ctx packet buf).1, Prod.ext rfl ?_⟩
  simp only [writeDatagram, hwrite, hbody, hslice, DataBuffer.bytes_overwrite _ hcrc, length_toLe,
    datagram]
  simp [List.take_append, h4, henc]

/-- A receiver that reads exactly the bytes of a datagram decodes the packet. -/
theorem checkDatagram_eq [LawfulByteRepr M] (ctx : MiniUdpContext) (packet : Packet M)
    (hcount : packet.messages.length < 2 ^ 32) {buf : DataBuffer}
    (h : buf.bytes.take (4 + packet.byteLen) = datagram ctx packet) :
    checkDatagram ctx (4 + packet.byteLen) buf = .ok (some packet) := by
  have hlen := congrArg List.length h
  rw [List.length_take, length_datagram] at hlen
  have hslice : sliceOf buf.bytes 4 (4 + packet.byteLen) = .ok packet.encode := by
    rw [sliceOf, if_pos ⟨by omega, by omega⟩, h, datagram]
    simp
  have h4 : buf.bytes.take 4 = toLe 4 (ctx.crc packet.encode).toNat := by
    have : buf.bytes.take 4 = (buf.bytes.take (4 + packet.byteLen)).take 4 := by
      rw [List.take_take, Nat.min_eq_left (by omega)]
    rw [this, h, datagram, List.take_left' (length_toLe 4 _)]
  have hcrc : UInt32.ofNat (fromLe (buf.bytes.take 4)) = ctx.crc packet.encode := by
    rw [h4, fromLe_toLe_of_lt (show _ < 256 ^ 4 from (ctx.crc packet.encode).toNat_lt),
      UInt32.ofNat_toNat]
  have hdec := Packet.fromBytes_encode packet hcount
  unfold checkDatagram
  cases ctx.debug <;> simp [hslice, hcrc, hdec]

/-- Writing a packet of up to `MAX_PACKET_DATA_LEN` bytes of messages and reading the datagram at
an end of the same protocol version gives the packet back, whatever the two buffers held. -/
theorem writeDatagram_roundtrip [LawfulByteRepr M] {sender receiver : MiniUdpContext}
    (hversion : receiver.PROTOCOL_VERSION = sender.PROTOCOL_VERSION)
    (hchecksum : receiver.checksum = sender.checksum) (packet : Packet M)
    (hcount : packet.messages.length < 2 ^ 32)
    (hlen : Packet.dataLen packet.messages ≤ MAX_PACKET_DATA_LEN) (buf : DataBuffer) :
    ∃ buf' dgram, writeDatagram sender packet buf = (buf', .ok dgram) ∧
      dgram.length = 4 + packet.byteLen ∧ dgram.length ≤ MAX_PACKET_LEN ∧
      ∀ rbuf : DataBuffer, rbuf.bytes.take dgram.length = dgram →
        checkDatagram receiver dgram.length rbuf = .ok (some packet) := by
  obtain ⟨buf', hw⟩ := writeDatagram_eq sender packet buf hlen
  have hd := length_datagram sender packet
  refine ⟨buf', _, hw, hd, hd ▸ byteLen_le hlen, fun rbuf h => ?_⟩
  have hsame : datagram sender packet = datagram receiver packet := by
    simp only [datagram, MiniUdpContext.crc, MiniUdpContext.CRC_ALGORITHM, hversion, hchecksum]
  rw [hd] at h ⊢
  exact checkDatagram_eq receiver packet hcount (h.trans hsame)

/-- A reliable packet of a sender that has received nothing. -/
def numbered (id : UInt16) : Packet Bool :=
  { ack := ⟨id, 65535, 0, 65535, 0⟩, reliable := true, ordered := false, messages := [true] }

theorem numbered_count (id : UInt16) : (numbered id).messages.length < 2 ^ 32 :=
  Nat.one_lt_two_pow_iff.mpr (by decide)

theorem numbered_dataLen (id : UInt16) :
    Packet.dataLen (numbered id).messages ≤ MAX_PACKET_DATA_LEN := show 1 ≤ 1024 by decide

/-- A buffer nothing has been written in. -/
def emptyBuffer : DataBuffer := ⟨List.replicate MAX_PACKET_LEN 0, List.length_replicate⟩

theorem writeDatagram_roundtrip_numbered :
    ∃ buf' dgram, writeDatagram (crcContext 1 false) (numbered 7) emptyBuffer = (buf', .ok dgram) ∧
      dgram.length = 25 ∧ dgram.length ≤ MAX_PACKET_LEN ∧
      ∀ rbuf : DataBuffer, rbuf.bytes.take dgram.length = dgram →
        checkDatagram (crcContext 1 true) dgram.length rbuf = .ok (some (numbered 7)) :=
  writeDatagram_roundtrip (by rfl) (by rfl) (numbered 7) (numbered_count 7)
    (numbered_dataLen 7) emptyBuffer

/-! ## Faithful links -/

/-- Every packet that fits is written without an error and read back as it was, whatever the
buffers hold. -/
def Link.Faithful (link : Link M Buf D) : Prop :=
  ∀ packet, Packet.dataLen packet.messages ≤ MAX_PACKET_DATA_LEN → ∀ buf,
    ∃ buf' d, link.write packet buf = (buf', .ok d) ∧
      ∀ rbuf, (link.read d rbuf).2 = .ok (some packet)

theorem directLink_faithful : (directLink M).Faithful :=
  fun packet _ buf => ⟨buf, packet, rfl, fun _ => rfl⟩

/-- The code's own link is faithful to messages that take at least one byte. -/
theorem crcLink_faithful [LawfulByteRepr M] (ctx : MiniUdpContext)
    (hpos : ∀ m : M, 0 < ByteRepr.byteLen m) : (crcLink (M := M) ctx).Faithful := by
  intro packet hlen buf
  -- each message takes a byte, so there are at most 1024
  have hle : packet.messages.length ≤ Packet.dataLen packet.messages := by
    unfold Packet.dataLen
    induction packet.messages with
    | nil => simp
    | cons m ms ih => have := hpos m; simp; omega
  have hmax : MAX_PACKET_DATA_LEN < 2 ^ 32 := by decide
  obtain ⟨buf', hw⟩ := writeDatagram_eq ctx packet buf hlen
  refine ⟨buf', datagram ctx packet, hw, fun rbuf => ?_⟩
  have hd := length_datagram ctx packet
  have hread : (rbuf.overwrite (datagram ctx packet)).bytes.take (4 + packet.byteLen) =
      datagram ctx packet := by
    rw [DataBuffer.bytes_overwrite _ (hd ▸ byteLen_le hlen), ← hd, List.take_left]
  show checkDatagram ctx (datagram ctx packet).length _ = _
  rw [hd]
  exact checkDatagram_eq ctx packet (by omega) hread

end MiniUdp
