import MiniUdp.Packet

/-!
# Sockets

The part of a communicator that touches the outside world: the buffer that
datagrams are assembled and received in, and the configuration. `Link` is the
path of one packet through the buffer to a datagram and back; the code above it
is the same for every link. `crcLink` is the code's own: the packet behind a
checksum of its bytes.
-/

namespace MiniUdp

/-- Points in time and spans of time, in nanoseconds. -/
abbrev Instant := Int
abbrev Duration := Nat

/-- `last.elapsed()` at `now`; a clock running backwards gives zero. -/
def elapsed (last now : Instant) : Duration := (now - last).toNat

def fromHours (h : Nat) : Duration := h * 3600 * 1000000000

def fromMillis (ms : Nat) : Duration := ms * 1000000

structure UdpCommunicatorSocket (Buf : Type) where
  dataBuffer : Buf
  reliableUnorderedResendInterval : Duration := fromMillis 100
  reliableOrderedResendInterval : Duration := fromMillis 100
  /-- How often a packet is sent again after the initial send. -/
  maxReliableUnorderedRetries : Nat := 100
  maxReliableOrderedRetries : Nat := 100

/-- How a packet of messages `M` becomes a datagram, and how a datagram is read. Both work in the
socket's buffer. -/
structure Link (M Buf Dgram : Type) where
  write : Packet M → Buf → Buf × Res Dgram
  /-- `none` for a datagram that is rejected. -/
  read : Dgram → Buf → Buf × Res (Option (Packet M))

/-! ## Datagrams with a checksum -/

/-- `data_buffer: [u8; MAX_PACKET_LEN]` -/
structure DataBuffer where
  bytes : Bytes
  length_eq : bytes.length = MAX_PACKET_LEN

/-- The parameters of a CRC. -/
structure Algorithm where
  width : Nat
  poly : UInt32
  init : UInt32
  refin : Bool
  refout : Bool
  xorout : UInt32
  check : UInt32
  residue : UInt32
  deriving DecidableEq, Repr

/-- What both ends of a connection are built with: the protocol version, and the checksum
function of the crc crate. -/
structure MiniUdpContext where
  PROTOCOL_VERSION : UInt32
  checksum : Algorithm → Bytes → UInt32
  /-- Is the `debug` feature on? -/
  debug : Bool

namespace MiniUdpContext

def CRC_ALGORITHM (ctx : MiniUdpContext) : Algorithm where
  width := 32
  poly := 0x04c11db7
  init := ctx.PROTOCOL_VERSION
  refin := false
  refout := false
  xorout := 0xffffffff
  check := 0xfc891918
  residue := 0xc704dd7b

/-- `Self::CRC.checksum(..)` -/
def crc (ctx : MiniUdpContext) (bytes : Bytes) : UInt32 := ctx.checksum ctx.CRC_ALGORITHM bytes

end MiniUdpContext

/-- One byte of the standard CRC of width 32, most significant bit first. -/
def crcByte (poly crc : UInt32) (byte : UInt8) : UInt32 :=
  (List.range 8).foldl (fun crc _ =>
    if crc &&& 0x80000000 != 0 then (crc <<< 1) ^^^ poly else crc <<< 1)
    (crc ^^^ (byte.toUInt32 <<< 24))

/-- The standard CRC for parameters of width 32 that reflect neither input nor output. -/
def crc32 (algorithm : Algorithm) (bytes : Bytes) : UInt32 :=
  bytes.foldl (crcByte algorithm.poly) algorithm.init ^^^ algorithm.xorout

/-- A context with the standard CRC. -/
def crcContext (version : UInt32) (debug : Bool) : MiniUdpContext :=
  { PROTOCOL_VERSION := version, checksum := crc32, debug }

-- the check value in `CRC_ALGORITHM`, for the bytes of "123456789"
example : (crcContext 0xffffffff false).crc [49, 50, 51, 52, 53, 54, 55, 56, 57] =
    (crcContext 0xffffffff false).CRC_ALGORITHM.check := by decide +kernel

section Crc

variable {M : Type} [ByteRepr M]

/-- Replace the front of the buffer. -/
def DataBuffer.overwrite (buf : DataBuffer) (bytes : Bytes) : DataBuffer :=
  if h : bytes.length ≤ MAX_PACKET_LEN then
    ⟨bytes ++ buf.bytes.drop bytes.length, by
      have := buf.length_eq
      simp only [List.length_append, List.length_drop]; omega⟩
  else buf

/-- Write the packet behind the place of the checksum, then the checksum, and cut off the
datagram: what `send_packets` and `resend_if_needed` do with the buffer. -/
def writeDatagram (ctx : MiniUdpContext) (packet : Packet M) (buf : DataBuffer) :
    DataBuffer × Res Bytes :=
  let (body, result) := packet.writeToBytes (buf.bytes.drop 4)
  let buf := buf.overwrite (buf.bytes.take 4 ++ body)
  match result with
  | .ok () =>
    match sliceOf buf.bytes 4 (4 + packet.byteLen) with
    | .ok written =>
      let buf := buf.overwrite (toLe 4 (ctx.crc written).toNat)
      (buf, .ok (buf.bytes.take (4 + packet.byteLen)))
    | _ => (buf, .panic)
  | .err e => (buf, .err e)
  | .panic => (buf, .panic)
  | .hang => (buf, .hang)

/-- The part of `read_packet` that looks at the bytes: the decode for the log (with the `debug`
feature, fake drops and corruption unset), the checksum, the decode. -/
def checkDatagram (ctx : MiniUdpContext) (n : Nat) (buf : DataBuffer) :
    Res (Option (Packet M)) := do
  if ctx.debug then
    let body ← sliceOf buf.bytes 4 n
    match Packet.fromBytes (M := M) body with
    | .ok _ => pure ()
    | .err _ => .panic
    | .panic => .panic
    | .hang => .hang
  let crc := UInt32.ofNat (fromLe (buf.bytes.take 4))
  let body ← sliceOf buf.bytes 4 n
  if ctx.crc body != crc then pure none
  else match Packet.fromBytes (M := M) body with
    | .ok packet => pure (some packet)
    | .err _ => pure none
    | .panic => .panic
    | .hang => .hang

/-- Datagrams are byte strings; receiving one copies it to the front of the buffer. -/
def crcLink (ctx : MiniUdpContext) : Link M DataBuffer Bytes where
  write := writeDatagram ctx
  read dgram buf :=
    let buf := buf.overwrite dgram
    (buf, checkDatagram ctx dgram.length buf)

end Crc

/-- Datagrams are the packets themselves. -/
def directLink (M : Type) : Link M Unit (Packet M) where
  write packet buf := (buf, .ok packet)
  read packet buf := (buf, .ok (some packet))

end MiniUdp
