import MiniUdp.Derive.Impl
import MiniUdp.Derive.NamedTypes
import MiniUdp.Derive.Within
import MiniUdp.Communicator.Wire

/-!
# Messages of derived types

A connection exchanges messages of any type with an impl of `ByteRepr`. The
codec of packets and of acknowledgements is derived: written out by hand it is
the one the macro generates for the two structs (`packet_derived`). So a packet
of derived messages that fits a datagram comes out of it as it was
(`derivedLink_faithful`).
-/

namespace MiniUdp.Derive

/-! ## Derived types implement the trait -/

/-- A type the macros accept. -/
structure MessageType where
  ty : Ty
  accepted : ty.Accepted

structure Message (t : MessageType) where
  val : t.ty.Val

/-- `usize::MAX` -/
def USIZE_MAX : Nat := 2 ^ 64 - 1

instance (t : MessageType) : ByteRepr (Message t) where
  minByteLen := t.ty.minByteLen USIZE_MAX
  maxByteLen := t.ty.maxByteLen USIZE_MAX
  byteLen m := t.ty.byteLen m.val
  writeToBytes m := t.ty.writeToBytes m.val
  fromBytes bytes := Message.mk <$> t.ty.fromBytes bytes
  length_writeToBytes m bytes := (t.ty.within t.accepted m.val bytes.length bytes rfl).1

theorem Message.val_bijective {t : MessageType} : Function.Bijective (@Message.val t) :=
  Function.bijective_iff_has_inverse.mpr ⟨Message.mk, fun _ => rfl, fun _ => rfl⟩

theorem Message.agrees (t : MessageType) : t.ty.impl.Agrees (.of (Message t)) Message.val where
  bijective := Message.val_bijective
  byteLen _ := rfl
  writeToBytes _ := rfl
  fromBytes bytes := by
    show _ = Message.val <$> Message.mk <$> t.ty.fromBytes bytes
    rw [Functor.map_map]
    exact (id_map _).symm

/-- A type the macros accept, with the names of its fields, that has no `Cow` and whose headers are
not captured. -/
structure NamedType extends MessageType where
  names : ty.Names
  cowFree : ty.CowFree
  uncaptured : ty.Uncaptured names

structure NamedMessage (t : NamedType) where
  val : t.ty.Val

namespace NamedMessage

variable {t : NamedType}

theorem runByteLen_eq (m : NamedMessage t) : t.ty.runByteLen m.val = .ok (t.ty.byteLen m.val) :=
  Ty.runByteLen_of_measured (t.ty.measured_of_cowFree t.cowFree m.val)

theorem runWriteToBytes_eq (m : NamedMessage t) :
    t.ty.runWriteToBytes m.val = t.ty.writeToBytes m.val :=
  t.ty.runWriteToBytes_eq _ (t.ty.stepped_of_measured _ (t.ty.measured_of_cowFree t.cowFree m.val))

theorem fromBytesNamed_eq (bytes : Bytes) :
    t.ty.fromBytesNamed t.names bytes = t.ty.fromBytes bytes := by
  have ht := t.ty.steppable_of_measurable (t.ty.measurable_of_cowFree t.cowFree)
  rw [Ty.fromBytesNamed, t.ty.runReadNamed_eq t.names t.uncaptured, (t.ty.runRead_runs bytes).eq ht]
  rfl

end NamedMessage

/-- The code as it runs; `byte_len` returns this length. -/
instance (t : NamedType) : ByteRepr (NamedMessage t) where
  minByteLen := t.ty.minByteLen USIZE_MAX
  maxByteLen := t.ty.maxByteLen USIZE_MAX
  byteLen m := t.ty.byteLen m.val
  writeToBytes m := t.ty.runWriteToBytes m.val
  fromBytes bytes := NamedMessage.mk <$> t.ty.fromBytesNamed t.names bytes
  length_writeToBytes m bytes := by
    rw [m.runWriteToBytes_eq]
    exact (t.ty.within t.accepted m.val bytes.length bytes rfl).1

theorem NamedMessage.agrees (t : NamedType) :
    t.ty.impl.Agrees (.of (NamedMessage t)) NamedMessage.val where
  bijective := Function.bijective_iff_has_inverse.mpr ⟨NamedMessage.mk, fun _ => rfl, fun _ => rfl⟩
  byteLen _ := rfl
  writeToBytes m := m.runWriteToBytes_eq.symm
  fromBytes bytes := by
    show _ = NamedMessage.val <$> NamedMessage.mk <$> t.ty.fromBytesNamed t.names bytes
    rw [Functor.map_map, NamedMessage.fromBytesNamed_eq]
    exact (id_map _).symm

/-! ## The two structs -/

/-- `struct PacketAck` -/
def packetAckTy : Ty :=
  .struct (.cons (.number .u16) (.cons (.number .u16) (.cons (.number .u32)
    (.cons (.number .u16) (.cons (.number .u32) .nil)))))

/-- `struct Packet<M>`, for a derived `M` -/
def packetTy (t : Ty) : Ty :=
  .struct (.cons (.delegated packetAckTy) (.cons .bool (.cons .bool (.cons (.vec t) .nil))))

section

variable {α : Type}

/-- The values of the fields of a packet. -/
abbrev PacketVal (α : Type) : Type := packetAckTy.Val × Bool × Bool × List α × Unit

/-- The impl for `struct Packet<M>`, from that of `M` -/
def packetImpl (i : Impl α) : Impl (PacketVal α) :=
  FieldsCode.struct (.cons (.delegated packetAckTy.impl) (.cons Value.bool.code
    (.cons Value.bool.code (.cons (.vec i) .nil))))

theorem packetTy_impl (t : Ty) : (packetTy t).impl = packetImpl t.impl := rfl

/-- The impl written out by hand. -/
def packetAckByHand : Impl PacketAck :=
  ⟨PacketAck.byteLen, PacketAck.writeToBytes, PacketAck.fromBytes⟩

def packetByHand (M : Type) [ByteRepr M] : Impl (Packet M) :=
  ⟨Packet.byteLen, Packet.writeToBytes, Packet.fromBytes⟩

end

def packetAckVal (ack : PacketAck) : packetAckTy.Val :=
  (ack.sequenceId.toBitVec, ack.reliableNewestReceived.toBitVec, ack.reliableAckBits.toBitVec,
    ack.orderedNewestReceived.toBitVec, ack.orderedAckBits.toBitVec, ())

def packetAckOf (x : packetAckTy.Val) : PacketAck :=
  ⟨⟨x.1⟩, ⟨x.2.1⟩, ⟨x.2.2.1⟩, ⟨x.2.2.2.1⟩, ⟨x.2.2.2.2.1⟩⟩

theorem packetAckVal_bijective : Function.Bijective packetAckVal :=
  Function.bijective_iff_has_inverse.mpr ⟨packetAckOf, fun _ => rfl, fun _ => rfl⟩

variable {M α : Type}

def packetVal (f : M → α) (packet : Packet M) : PacketVal α :=
  (packetAckVal packet.ack, packet.reliable, packet.ordered, packet.messages.map f, ())

theorem packetVal_bijective {f : M → α} (h : Function.Bijective f) :
    Function.Bijective (packetVal f) := by
  obtain ⟨g, hgf, hfg⟩ := Function.bijective_iff_has_inverse.mp h
  refine Function.bijective_iff_has_inverse.mpr
    ⟨fun x => ⟨packetAckOf x.1, x.2.1, x.2.2.1, x.2.2.2.1.map g⟩, fun packet => ?_, fun x => ?_⟩
  · simp only [packetVal, List.map_map, hgf.comp_eq_id, List.map_id]
    rfl
  · simp only [packetVal, List.map_map, hfg.comp_eq_id, List.map_id]
    rfl

theorem packetAck_byteLen (ack : PacketAck) :
    packetAckTy.byteLen (packetAckVal ack) = ack.byteLen := rfl

theorem packetAck_writeToBytes (ack : PacketAck) :
    packetAckTy.writeToBytes (packetAckVal ack) = ack.writeToBytes := by
  simp only [packetAckTy, packetAckVal, Ty.writeToBytes, Fields.writeFixedPart,
    Value.writeFixedPart, Fields.writeVariablePart, Value.writeVariablePart, bind_assoc, pure_bind,
    bind_pure_unit]
  rfl

theorem Number.read_u16 (bytes : Bytes) (a : Nat) :
    Number.u16.read bytes a = (do let x ← readU16 bytes a; pure x.toBitVec) := by
  unfold Number.read readU16
  rw [if_neg (by decide), bind_assoc]
  rfl

theorem Number.read_u32 (bytes : Bytes) (a : Nat) :
    Number.u32.read bytes a = (do let x ← readU32 bytes a; pure x.toBitVec) := by
  unfold Number.read readU32
  rw [if_neg (by decide), bind_assoc]
  rfl

theorem toLe_mod (w n : Nat) : toLe w (n % 256 ^ w) = toLe w n := by
  have h := toLe_fromLe (toLe w n)
  rwa [length_toLe, fromLe_toLe] at h

theorem lenBytes_eq (len : Nat) : lenBytes len = toLe 4 len := by
  unfold lenBytes
  rw [UInt32.toNat_ofNat']
  exact toLe_mod 4 len

theorem length_of_readRange {bytes bs : Bytes} {a w : Nat} (h : readRange bytes a w = .ok bs) :
    bs.length = w := by
  unfold readRange at h
  split at h
  · cases h
    rw [List.length_take, List.length_drop]
    omega
  · cases h

theorem readLen_eq (bytes : Bytes) (a : Nat) :
    readLen bytes a = (do let len ← readU32 bytes a; pure len.toNat) := by
  unfold readLen readU32
  cases h : readRange bytes a 4 with
  | ok bs =>
    have hlt := fromLe_lt bs
    rw [length_of_readRange h] at hlt
    exact congrArg Outcome.ok (Nat.mod_eq_of_lt hlt).symm
  | err | panic | hang => rfl

theorem packetAck_fromBytes (bytes : Bytes) :
    packetAckTy.fromBytes bytes = packetAckVal <$> PacketAck.fromBytes bytes := by
  simp only [PacketAck.fromBytes, map_bind, map_pure]
  simp only [packetAckTy, Ty.fromBytes, Ty.read, value, Fields.readFixedPart, Value.readFixedPart,
    Fields.readVariablePart, Value.readVariablePart, bind_assoc, pure_bind]
  simp only [Number.read_u16, Number.read_u32, bind_assoc]
  rfl

theorem packetAck_agrees : packetAckTy.impl.Agrees packetAckByHand packetAckVal :=
  ⟨packetAckVal_bijective, packetAck_byteLen, packetAck_writeToBytes, packetAck_fromBytes⟩

/-! ## Packets -/

section Packets

variable [ByteRepr M] {i : Impl α} {f : M → α} (h : i.Agrees (.of M) f)

include h

theorem writeMessages_eq (messages : List M) (bytePtr : Nat) :
    (do let _ ← writeItems i.writeToBytes i.byteLen (messages.map f) bytePtr
        pure ()) = Packet.writeMessages messages bytePtr := by
  induction messages generalizing bytePtr with
  | nil => rfl
  | cons m ms ih =>
    simp only [List.map_cons, writeItems, bind_assoc, Packet.writeMessages, ← ih, h.byteLen,
      h.writeToBytes]
    rfl

theorem dataLen_eq (messages : List M) :
    ((messages.map f).map i.byteLen).sum = Packet.dataLen messages := by
  rw [List.map_map]
  exact congrArg List.sum (List.map_congr_left fun m _ => h.byteLen m)

theorem packet_byteLen (packet : Packet M) :
    (packetImpl i).byteLen (packetVal f packet) = packet.byteLen := by
  show 0 + (1 + (1 + (4 + 0))) + (packetAckTy.byteLen (packetAckVal packet.ack) +
    (0 + (0 + (((packet.messages.map f).map i.byteLen).sum + 0)))) = packet.byteLen
  rw [dataLen_eq h, packetAck_byteLen, Packet.byteLen]
  omega

theorem packet_writeToBytes (packet : Packet M) :
    (packetImpl i).writeToBytes (packetVal f packet) = packet.writeToBytes := by
  simp only [packetImpl, packetVal, FieldsCode.struct, FieldsCode.cons, FieldsCode.nil,
    FieldCode.delegated, FieldCode.vec, Value.code, Ty.impl, Value.writeFixedPart,
    Value.writeVariablePart, bind_assoc, pure_bind, packetAck_writeToBytes, packetAck_byteLen,
    Packet.writeToBytes, lenBytes_eq, List.length_map]
  simp only [← writeMessages_eq h]
  rfl

theorem readMessages_eq (bytes : Bytes) (count bytePtr : Nat) :
    (do let (items, _) ← readItems i.fromBytes i.byteLen bytes count bytePtr
        pure items.val) =
      List.map f <$> Packet.readMessages (M := M) bytes count bytePtr := by
  induction count generalizing bytePtr with
  | zero => rfl
  | succ count ih =>
    simp only [readItems, Packet.readMessages, bind_assoc, pure_bind, map_bind, map_pure,
      h.fromBytes, bind_map_left]
    refine bind_congr fun rest => bind_congr fun item => ?_
    rw [h.byteLen]
    have hrest := congrArg (fun r => r >>= fun items => pure (f item :: items))
      (ih (bytePtr + ByteRepr.byteLen item))
    rw [bind_map_left, bind_assoc] at hrest
    exact hrest

theorem packet_fromBytes (bytes : Bytes) :
    (packetImpl i).fromBytes bytes = packetVal f <$> Packet.fromBytes bytes := by
  simp only [Packet.fromBytes, map_bind, map_pure]
  simp only [packetImpl, FieldsCode.struct, FieldsCode.cons, FieldsCode.nil, FieldCode.delegated,
    FieldCode.vec, Value.code, Ty.impl, Value.readFixedPart, Value.readVariablePart, value,
    bind_assoc, pure_bind]
  simp only [readFlag, readLen_eq, bind_assoc, pure_bind]
  refine bind_congr fun reliable => bind_congr fun ordered => bind_congr fun count =>
    bind_congr fun rest => ?_
  rw [packetAck_fromBytes, bind_map_left]
  refine bind_congr fun ack => ?_
  have hmessages := congrArg
    (fun r => r >>= fun items => pure (packetAckVal ack, reliable == 1, ordered == 1, items, ()))
    (readMessages_eq h bytes count.toNat (6 + ack.byteLen))
  rw [bind_map_left, bind_assoc] at hmessages
  exact hmessages

theorem packet_agrees : (packetImpl i).Agrees (packetByHand M) (packetVal f) :=
  ⟨packetVal_bijective h.bijective, packet_byteLen h, packet_writeToBytes h, packet_fromBytes h⟩

end Packets

/-- The codecs of acknowledgements and of packets are the ones the macro generates, for every type
of messages with an impl, and then for every derived one. -/
theorem packet_derived : packetAckTy.impl.Agrees packetAckByHand packetAckVal ∧
    (∀ (M : Type) [ByteRepr M], (packetImpl (.of M)).Agrees (packetByHand M) (packetVal id)) ∧
    ∀ t : MessageType,
      (packetTy t.ty).impl.Agrees (packetByHand (Message t)) (packetVal Message.val) :=
  ⟨packetAck_agrees, fun M _ => packet_agrees (.refl (.of M)),
    fun t => packet_agrees (Message.agrees t)⟩

/-! ## The link -/

mutual

/-- No vector has items that may take no bytes. -/
def Value.ItemsTakeBytes : Value → Prop
  | .emptyTuple | .bool | .number _ | .string => True
  | .cow v | .option v => v.ItemsTakeBytes
  | .array t _ | .delegated t => t.ItemsTakeBytes
  | .vec t => (∀ x, 0 < t.byteLen x) ∧ t.ItemsTakeBytes

def Ty.ItemsTakeBytes : Ty → Prop
  | .lone v => v.ItemsTakeBytes
  | .struct fs => fs.ItemsTakeBytes
  | .enum vs => vs.ItemsTakeBytes

def Fields.ItemsTakeBytes : Fields → Prop
  | .nil => True
  | .cons v fs => v.ItemsTakeBytes ∧ fs.ItemsTakeBytes

def Variants.ItemsTakeBytes : Variants → Prop
  | .nil => True
  | .cons fs vs => fs.ItemsTakeBytes ∧ vs.ItemsTakeBytes

end

theorem le_sum_of_mem {α : Type} {f : α → Nat} {xs : List α} {x : α} (h : x ∈ xs) :
    f x ≤ (xs.map f).sum :=
  List.single_le_sum (fun _ _ => Nat.zero_le _) _ (List.mem_map_of_mem h)

theorem length_le_sum {α : Type} {f : α → Nat} (h : ∀ x, 0 < f x) (xs : List α) :
    xs.length ≤ (xs.map f).sum := by
  have := le_sum_map (n := 1) (l := xs) fun x _ => h x
  omega

mutual

/-- What takes few bytes has short strings and vectors. -/
theorem Value.small_of_lt : (v : Value) → v.ItemsTakeBytes → (x : v.Val) →
    v.unknownLength x < 2 ^ 32 → v.Small x
  | .emptyTuple, _, _, _ | .bool, _, _, _ | .number _, _, _, _ => trivial
  | .option _, _, none, _ => trivial
  | .string, _, _, hlt => hlt
  | .cow v, h, x, hlt => v.small_of_lt h x.get hlt
  | .option v, h, some x, hlt => by
    rw [Value.unknownLength] at hlt
    exact v.small_of_lt h x (by omega)
  | .array t _, h, xs, hlt => fun x hx =>
    t.small_of_lt h x ((le_sum_of_mem hx).trans_lt hlt)
  | .vec t, h, xs, hlt =>
    ⟨(length_le_sum h.1 xs).trans_lt hlt, fun x hx =>
      t.small_of_lt h.2 x ((le_sum_of_mem hx).trans_lt hlt)⟩
  | .delegated t, h, x, hlt => t.small_of_lt h x hlt

theorem Ty.small_of_lt : (t : Ty) → t.ItemsTakeBytes → (x : t.Val) → t.byteLen x < 2 ^ 32 →
    t.Small x
  | .lone v, h, x, hlt => v.small_of_lt h x (by rw [Ty.byteLen] at hlt; omega)
  | .struct fs, h, x, hlt => fs.small_of_lt h x (by rw [Ty.byteLen] at hlt; omega)
  | .enum vs, h, x, hlt => vs.small_of_lt h x (by rw [Ty.byteLen] at hlt; omega)

theorem Fields.small_of_lt : (fs : Fields) → fs.ItemsTakeBytes → (x : fs.Val) →
    fs.unknownLength x < 2 ^ 32 → fs.Small x
  | .nil, _, _, _ => trivial
  | .cons v fs, h, (x, xs), hlt => by
    rw [Fields.unknownLength] at hlt
    exact ⟨v.small_of_lt h.1 x (by omega), fs.small_of_lt h.2 xs (by omega)⟩

theorem Variants.small_of_lt : (vs : Variants) → vs.ItemsTakeBytes → (x : vs.Val) →
    vs.asLength x < 2 ^ 32 → vs.Small x
  | .nil, _, x, _ => nomatch x
  | .cons fs _, h, .inl x, hlt => fs.small_of_lt h.1 x (by rw [Variants.asLength] at hlt; omega)
  | .cons _ vs, h, .inr x, hlt => vs.small_of_lt h.2 x hlt

end

/-- The packet's codec writes these bytes and reads them back. -/
structure Encodes {M : Type} [ByteRepr M] (packet : Packet M) (bs : Bytes) : Prop where
  length : bs.length = packet.byteLen
  writes : Writes packet.writeToBytes 0 bs
  reads : Packet.fromBytes bs = .ok packet

theorem encodes_of_small {t : NamedType} {packet : Packet (NamedMessage t)}
    {x : (packetTy t.ty).Val} (hx : packetVal NamedMessage.val packet = x)
    (hsmall : (packetTy t.ty).Small x) : Encodes packet ((packetTy t.ty).encode x) := by
  have hagrees : (packetTy t.ty).impl.Agrees (packetByHand (NamedMessage t))
      (packetVal NamedMessage.val) := packet_agrees (NamedMessage.agrees t)
  have haccepted : (packetTy t.ty).Accepted :=
    ⟨⟨trivial, trivial, trivial, trivial, trivial, trivial⟩, trivial, trivial, t.accepted, trivial⟩
  have hfree : (packetTy t.ty).CowFree :=
    ⟨⟨trivial, trivial, trivial, trivial, trivial, trivial⟩, trivial, trivial, t.cowFree, trivial⟩
  have hlen : (packetTy t.ty).byteLen x = packet.byteLen := hx ▸ hagrees.byteLen packet
  have hwriter : (packetTy t.ty).writeToBytes x = packet.writeToBytes :=
    hx ▸ hagrees.writeToBytes packet
  have hwrites := (packetTy t.ty).writes haccepted x ((packetTy t.ty).single_of_cowFree hfree x)
  refine ⟨((packetTy t.ty).length_encode x).trans hlen, hwriter ▸ hwrites, ?_⟩
  have hread := value_ok ((packetTy t.ty).reads haccepted x hsmall [])
  rw [List.append_nil, (packetTy t.ty).owned_of_cowFree hfree] at hread
  have hmap := (hagrees.fromBytes _).symm.trans hread
  revert hmap
  cases hpacket : (packetByHand (NamedMessage t)).fromBytes ((packetTy t.ty).encode x) with
  | ok packet' =>
    intro hmap
    rw [← hagrees.bijective.1 ((Outcome.ok.inj hmap).trans hx.symm)]
    exact hpacket
  | err | panic | hang => exact fun hmap => nomatch hmap

namespace Encodes

variable {M : Type} [ByteRepr M] {packet : Packet M} {bs : Bytes}

/-- The bytes of a datagram with the packet. -/
def datagram (ctx : MiniUdpContext) (bs : Bytes) : Bytes := toLe 4 (ctx.crc bs).toNat ++ bs

theorem length_datagram (ctx : MiniUdpContext) (bs : Bytes) :
    (datagram ctx bs).length = 4 + bs.length := by
  simp [datagram]

theorem writeDatagram_eq (h : Encodes packet bs) (ctx : MiniUdpContext) (buf : DataBuffer)
    (hfits : Packet.dataLen packet.messages ≤ MAX_PACKET_DATA_LEN) :
    ∃ buf', writeDatagram ctx packet buf = (buf', .ok (datagram ctx bs)) := by
  have hlen := byteLen_le hfits
  have hbuf := buf.length_eq
  have hbs := h.length
  -- the packet goes behind the place of the checksum
  have hwrite : packet.writeToBytes (buf.bytes.drop 4) =
      (bs ++ buf.bytes.drop (4 + bs.length), .ok ()) := by
    rw [h.writes _ (by rw [List.length_drop]; omega)]
    simp [List.drop_drop]
  have h4 : (buf.bytes.take 4).length = 4 := by
    rw [List.length_take]
    omega
  have hall : (buf.bytes.take 4 ++ (bs ++ buf.bytes.drop (4 + bs.length))).length =
      MAX_PACKET_LEN := by
    simp only [List.length_append, List.length_drop, h4]
    omega
  have hbody : (buf.overwrite (buf.bytes.take 4 ++
      (bs ++ buf.bytes.drop (4 + bs.length)))).bytes =
      buf.bytes.take 4 ++ (bs ++ buf.bytes.drop (4 + bs.length)) := by
    rw [DataBuffer.bytes_overwrite _ (by omega), hall, ← hbuf, List.drop_length, List.append_nil]
  have hslice : sliceOf (buf.bytes.take 4 ++ (bs ++ buf.bytes.drop (4 + bs.length))) 4
      (4 + packet.byteLen) = .ok bs := by
    rw [sliceOf, if_pos ⟨by omega, by omega⟩, List.take_append, h4]
    simp [h4, ← hbs]
  have hcrc : (toLe 4 (ctx.crc bs).toNat).length ≤ MAX_PACKET_LEN := by
    rw [length_toLe]
    decide
  refine ⟨(writeDatagram ctx packet buf).1, Prod.ext rfl ?_⟩
  simp only [writeDatagram, hwrite, hbody, hslice, DataBuffer.bytes_overwrite _ hcrc, length_toLe]
  rw [List.drop_left' h4, ← hbs]
  simp [datagram, List.take_append]

theorem checkDatagram_eq (h : Encodes packet bs) (ctx : MiniUdpContext) {buf : DataBuffer}
    (htake : buf.bytes.take (4 + bs.length) = datagram ctx bs) :
    checkDatagram ctx (4 + bs.length) buf = .ok (some packet) := by
  have hlen := congrArg List.length htake
  rw [List.length_take, length_datagram] at hlen
  have hslice : sliceOf buf.bytes 4 (4 + bs.length) = .ok bs := by
    rw [sliceOf, if_pos ⟨by omega, by omega⟩, htake, datagram]
    simp
  have h4 : buf.bytes.take 4 = toLe 4 (ctx.crc bs).toNat := by
    have htwice : buf.bytes.take 4 = (buf.bytes.take (4 + bs.length)).take 4 := by
      rw [List.take_take, Nat.min_eq_left (by omega)]
    rw [htwice, htake, datagram, List.take_left' (length_toLe 4 _)]
  have hcrc : UInt32.ofNat (fromLe (buf.bytes.take 4)) = ctx.crc bs := by
    rw [h4, fromLe_toLe_of_lt (show _ < 256 ^ 4 from (ctx.crc bs).toNat_lt), UInt32.ofNat_toNat]
  unfold checkDatagram
  cases ctx.debug <;> simp [hslice, hcrc, h.reads]

theorem carried (h : Encodes packet bs) (ctx : MiniUdpContext)
    (hfits : Packet.dataLen packet.messages ≤ MAX_PACKET_DATA_LEN) (buf : DataBuffer) :
    ∃ buf' d, (crcLink ctx).write packet buf = (buf', .ok d) ∧
      ∀ rbuf, ((crcLink ctx).read d rbuf).2 = .ok (some packet) := by
  obtain ⟨buf', hw⟩ := h.writeDatagram_eq ctx buf hfits
  have hlen := byteLen_le hfits
  have hd := length_datagram ctx bs
  have hbs := h.length
  refine ⟨buf', _, hw, fun rbuf => ?_⟩
  have hread : (rbuf.overwrite (datagram ctx bs)).bytes.take (4 + bs.length) =
      datagram ctx bs := by
    rw [DataBuffer.bytes_overwrite _ (by omega), ← hd, List.take_left]
  show checkDatagram ctx (datagram ctx bs).length _ = _
  rw [hd]
  exact h.checkDatagram_eq ctx hread

end Encodes

theorem packet_small {t : NamedType} {packet : Packet (NamedMessage t)}
    (hitems : t.ty.ItemsTakeBytes) (hpos : ∀ x, 0 < t.ty.byteLen x)
    (hfits : Packet.dataLen packet.messages ≤ MAX_PACKET_DATA_LEN) :
    (packetTy t.ty).Small (packetVal NamedMessage.val packet) := by
  have htypes : (packetTy t.ty).ItemsTakeBytes :=
    ⟨⟨trivial, trivial, trivial, trivial, trivial, trivial⟩, trivial, trivial, ⟨hpos, hitems⟩,
      trivial⟩
  refine (packetTy t.ty).small_of_lt htypes _ ?_
  have hlen := byteLen_le hfits
  have hmax : MAX_PACKET_LEN < 2 ^ 32 := by decide
  have hpacket : (packetTy t.ty).byteLen (packetVal NamedMessage.val packet) = packet.byteLen :=
    packet_byteLen (NamedMessage.agrees t) packet
  omega

/-- The code's own link is faithful to messages of any derived type that take at least one byte,
without a `Cow`, without a header that is captured, and without vectors of items that may take
none. -/
theorem derivedLink_faithful (t : NamedType) (hitems : t.ty.ItemsTakeBytes)
    (hpos : ∀ x, 0 < t.ty.byteLen x) (ctx : MiniUdpContext) :
    (crcLink (M := NamedMessage t) ctx).Faithful := fun _ hfits buf =>
  (encodes_of_small rfl (packet_small hitems hpos hfits)).carried ctx hfits buf

def mixedMessages : NamedType where
  ty := mixedEnum
  accepted := ⟨by decide, by decide, trivial, ⟨trivial, trivial, trivial, trivial⟩, trivial⟩
  names := mixedEnum.anyNames
  cowFree := ⟨trivial, ⟨trivial, trivial, trivial, trivial⟩, trivial⟩
  uncaptured := mixedEnum.uncaptured_any

theorem derivedLink_faithful_mixedEnum :
    (crcLink (M := NamedMessage mixedMessages) (crcContext 1 true)).Faithful :=
  derivedLink_faithful mixedMessages
    ⟨trivial, ⟨⟨fun _ => Nat.add_pos_left Nat.one_pos _, trivial⟩, trivial, trivial, trivial⟩,
      trivial⟩
    (fun _ => Nat.add_pos_right _ Nat.one_pos) (crcContext 1 true)

end MiniUdp.Derive
