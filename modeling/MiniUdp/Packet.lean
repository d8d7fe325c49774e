import MiniUdp.PacketAck

/-!
# Packets

A packet is an acknowledgement, two flags and a list of messages. In its
derived byte representation the fixed part (the flags and the number of
messages) comes first, then the acknowledgement, then the messages.
-/

namespace MiniUdp

/-- The bound on the messages' bytes in one packet. -/
def MAX_PACKET_DATA_LEN : Nat := 1024

/-- The CRC, the acknowledgement, two flags and the number of messages. -/
def PACKET_HEADER_LEN : Nat := 4 + 14 + 2 + 4

def MAX_PACKET_LEN : Nat := PACKET_HEADER_LEN + MAX_PACKET_DATA_LEN

structure Packet (M : Type) where
  ack : PacketAck
  reliable : Bool
  ordered : Bool
  /-- No messages in an unreliable packet: a heartbeat. -/
  messages : List M
  deriving DecidableEq, Repr

namespace Packet

variable {M : Type}

def heartbeat (ack : PacketAck) : Packet M :=
  { ack, reliable := false, ordered := false, messages := [] }

variable [ByteRepr M]

/-- The bytes of the messages. -/
def dataLen (messages : List M) : Nat := (messages.map ByteRepr.byteLen).sum

def byteLen (packet : Packet M) : Nat := 6 + packet.ack.byteLen + dataLen packet.messages

/-- `for item in messages { item.write_to_bytes(&mut bytes[byte_ptr..])?; .. }` -/
def writeMessages : List M → Nat → Write Unit
  | [], _ => pure ()
  | item :: items, bytePtr => do
    .suffix bytePtr (ByteRepr.writeToBytes item)
    writeMessages items (bytePtr + ByteRepr.byteLen item)

def writeToBytes (packet : Packet M) : Write Unit := do
  .byte 0 (flag packet.reliable)
  .byte 1 (flag packet.ordered)
  .range 2 (toLe 4 packet.messages.length)
  .suffix 6 packet.ack.writeToBytes
  writeMessages packet.messages (6 + packet.ack.byteLen)

/-- `for i in 0..count { let item = M::from_bytes(&bytes[byte_ptr..])?; .. }` -/
def readMessages (bytes : Bytes) : Nat → Nat → Res (List M)
  | 0, _ => pure []
  | count + 1, bytePtr => do
    let rest ← suffixFrom bytes bytePtr
    let item ← ByteRepr.fromBytes rest
    let items ← readMessages bytes count (bytePtr + ByteRepr.byteLen item)
    pure (item :: items)

def fromBytes (bytes : Bytes) : Res (Packet M) := do
  let reliable ← readByte bytes 0
  let ordered ← readByte bytes 1
  let count ← readU32 bytes 2
  let rest ← suffixFrom bytes 6
  let ack ← PacketAck.fromBytes rest
  let messages ← readMessages bytes count.toNat (6 + ack.byteLen)
  pure { ack, reliable := reliable == 1, ordered := ordered == 1, messages }

theorem length_writeMessages (messages : List M) (a : Nat) (bytes : Bytes) :
    (writeMessages messages a bytes).1.length = bytes.length := by
  induction messages generalizing a bytes with
  | nil => rfl
  | cons m ms ih =>
    have hm := Write.length_suffix a (ByteRepr.length_writeToBytes m) bytes
    exact (Write.length_bind (ih _) bytes).trans hm

/-! ## `derive_for!(Vec<T>)`

The loops over the elements are those over the messages of a packet. -/

def writeVec (items : List M) : Write Unit := do
  .range 0 (toLe 4 items.length)
  writeMessages items 4

instance : ByteRepr (List M) where
  minByteLen := 4
  maxByteLen := 4 + 1000 * ByteRepr.maxByteLen M
  byteLen items := 4 + dataLen items
  writeToBytes := writeVec
  fromBytes bytes := do
    let count ← readU32 bytes 0
    readMessages bytes count.toNat 4
  length_writeToBytes items bytes :=
    (Write.length_bind (length_writeMessages items 4) bytes).trans
      (Write.length_range _ _ _)

/-! ## The round trip -/

section Lawful

variable [LawfulByteRepr M]

def encodeMessages (messages : List M) : Bytes := messages.flatMap LawfulByteRepr.encode

theorem length_encodeMessages (messages : List M) :
    (encodeMessages messages).length = dataLen messages := by
  induction messages with
  | nil => rfl
  | cons m ms ih =>
    simp only [encodeMessages, dataLen, List.flatMap_cons, List.length_append,
      LawfulByteRepr.length_encode, List.map_cons, List.sum_cons] at ih ⊢
    rw [ih]

theorem writes_messages (messages : List M) (a : Nat) :
    Writes (writeMessages messages a) a (encodeMessages messages) := by
  induction messages generalizing a with
  | nil => exact .pure a
  | cons m ms ih =>
    have hm := (LawfulByteRepr.writes m).suffix a
    refine .seq hm ?_
    rw [LawfulByteRepr.length_encode]
    exact ih _

/-- Reading finds the messages at the offsets at which they were written. -/
theorem readMessages_append (messages : List M) (pre rest : Bytes) {a : Nat}
    (ha : pre.length = a) :
    readMessages (pre ++ encodeMessages messages ++ rest) messages.length a = .ok messages := by
  induction messages generalizing pre a with
  | nil => rfl
  | cons m ms ih =>
    have e : pre ++ encodeMessages (m :: ms) ++ rest =
        pre ++ (LawfulByteRepr.encode m ++ (encodeMessages ms ++ rest)) := by
      simp [encodeMessages]
    have hrest : readMessages (pre ++ encodeMessages (m :: ms) ++ rest) ms.length
        (a + ByteRepr.byteLen m) = .ok ms := by
      have := ih (pre ++ LawfulByteRepr.encode m) (a := a + ByteRepr.byteLen m)
        (by rw [List.length_append, ha, LawfulByteRepr.length_encode])
      simpa [encodeMessages] using this
    have hs : suffixFrom (pre ++ encodeMessages (m :: ms) ++ rest) a =
        .ok (LawfulByteRepr.encode m ++ (encodeMessages ms ++ rest)) := by
      rw [e, suffixFrom_append _ _ ha]
    simp only [List.length_cons, readMessages, hs, Outcome.bind_ok,
      LawfulByteRepr.fromBytes_encode, hrest, Outcome.pure_def]

def encode (packet : Packet M) : Bytes :=
  [flag packet.reliable] ++ ([flag packet.ordered] ++ (toLe 4 packet.messages.length ++
    (packet.ack.encode ++ encodeMessages packet.messages)))

theorem length_encode (packet : Packet M) : packet.encode.length = packet.byteLen := by
  simp [encode, byteLen, PacketAck.byteLen, length_encodeMessages]
  omega

theorem writes (packet : Packet M) : Writes packet.writeToBytes 0 packet.encode := by
  refine .seq (.range 0 _) ?_
  refine .seq (by simpa using .range 1 _) ?_
  refine .seq (by simpa using .range 2 _) ?_
  refine .seq (by simpa using packet.ack.writes.suffix 6) ?_
  simpa [PacketAck.byteLen] using writes_messages packet.messages 20

theorem fromBytes_encode (packet : Packet M) (h : packet.messages.length < 2 ^ 32) :
    fromBytes packet.encode = .ok packet := by
  have h2 : readU32 packet.encode 2 = .ok (UInt32.ofNat packet.messages.length) := by
    have := readU32_append ([flag packet.reliable] ++ [flag packet.ordered])
      (packet.ack.encode ++ encodeMessages packet.messages)
      (UInt32.ofNat packet.messages.length) (a := 2) rfl
    rw [UInt32.toNat_ofNat', Nat.mod_eq_of_lt h] at this
    simpa [encode] using this
  have h6 : suffixFrom packet.encode 6 =
      .ok (packet.ack.encode ++ encodeMessages packet.messages) := by
    have := suffixFrom_append ([flag packet.reliable] ++ [flag packet.ordered] ++
      toLe 4 packet.messages.length) (packet.ack.encode ++ encodeMessages packet.messages)
      (a := 6) (by simp)
    simpa [encode] using this
  have hm : readMessages packet.encode packet.messages.length 20 = .ok packet.messages := by
    have := readMessages_append packet.messages ([flag packet.reliable] ++
      [flag packet.ordered] ++ toLe 4 packet.messages.length ++ packet.ack.encode) []
      (a := 20) (by simp)
    simpa [encode] using this
  have hcount : (UInt32.ofNat packet.messages.length).toNat = packet.messages.length := by
    rw [UInt32.toNat_ofNat', Nat.mod_eq_of_lt h]
  have hr : readByte packet.encode 0 = .ok (flag packet.reliable) := rfl
  have ho : readByte packet.encode 1 = .ok (flag packet.ordered) := rfl
  simp only [fromBytes, hr, ho, h2, h6, Outcome.bind_ok, PacketAck.fromBytes_encode, hcount,
    PacketAck.byteLen, hm, Outcome.pure_def, flag_beq_one]

end Lawful

/-! ## Bytes from anywhere -/

/-- The first `k` messages from offset `a` decode, and the last of them ends at offset `b` by its
own account. -/
inductive MessagesEnd (bytes : Bytes) : Nat → Nat → Nat → Prop where
  | none (a : Nat) : MessagesEnd bytes 0 a a
  | cons {k a b : Nat} {item : M} : a ≤ bytes.length →
      ByteRepr.fromBytes (bytes.drop a) = .ok item →
      MessagesEnd bytes k (a + ByteRepr.byteLen item) b → MessagesEnd bytes (k + 1) a b

/-- The number of messages a packet's bytes announce. -/
def announced (bytes : Bytes) : Nat := fromLe ((bytes.drop 2).take 4)

/-- Fewer messages than announced decode and claim more bytes than there are. -/
def Overruns (M : Type) [ByteRepr M] (bytes : Bytes) : Prop :=
  20 ≤ bytes.length ∧ ∃ k < announced bytes, ∃ b, MessagesEnd (M := M) bytes k 20 b ∧
    bytes.length < b

section Total

variable (total : ∀ bytes, (ByteRepr.fromBytes bytes : Res M).returns = true)
include total

/-- Only an offset past the end of the bytes makes reading panic. -/
theorem readMessages_cases (bytes : Bytes) (count a : Nat) :
    (readMessages (M := M) bytes count a).returns = true ∧
      (¬ ∃ k < count, ∃ b, MessagesEnd (M := M) bytes k a b ∧ bytes.length < b) ∨
    readMessages (M := M) bytes count a = .panic ∧
      ∃ k < count, ∃ b, MessagesEnd (M := M) bytes k a b ∧ bytes.length < b := by
  induction count generalizing a with
  | zero => exact .inl ⟨rfl, by simp⟩
  | succ count ih =>
    by_cases ha : a ≤ bytes.length
    · have hs : suffixFrom bytes a = .ok (bytes.drop a) := if_pos ha
      -- an overrun after the first message is one from its end
      have hstep : ∀ k b, MessagesEnd (M := M) bytes k a b → bytes.length < b →
          ∃ item : M, ByteRepr.fromBytes (bytes.drop a) = .ok item ∧ ∃ j, k = j + 1 ∧
            MessagesEnd (M := M) bytes j (a + ByteRepr.byteLen item) b := by
        intro k b hk hb
        cases hk with
        | none => omega
        | cons _ hitem hrest => exact ⟨_, hitem, _, rfl, hrest⟩
      have htotal := total (bytes.drop a)
      cases hitem : (ByteRepr.fromBytes (bytes.drop a) : Res M) with
      | panic => rw [hitem] at htotal; cases htotal
      | hang => rw [hitem] at htotal; cases htotal
      | err e =>
        refine .inl ⟨by simp [readMessages, hs, hitem], ?_⟩
        rintro ⟨k, -, b, hk, hb⟩
        obtain ⟨item, h, -⟩ := hstep k b hk hb
        rw [hitem] at h; cases h
      | ok item =>
        rcases ih (a + ByteRepr.byteLen item) with ⟨hret, hno⟩ | ⟨hpanic, k, hk, b, hend, hb⟩
        · refine .inl ⟨?_, ?_⟩
          · simp only [readMessages, hs, hitem, Outcome.bind_ok]
            cases h : readMessages (M := M) bytes count (a + ByteRepr.byteLen item) <;>
              simp [h] at hret ⊢
          · rintro ⟨k, hk, b, hend, hb⟩
            obtain ⟨item', h, j, rfl, hj⟩ := hstep k b hend hb
            rw [hitem] at h; cases h
            exact hno ⟨j, by omega, b, hj, hb⟩
        · exact .inr ⟨by simp [readMessages, hs, hitem, hpanic],
            k + 1, by omega, b, .cons ha hitem hend, hb⟩
    · exact .inr ⟨by simp [readMessages, suffixFrom, ha], 0, by omega, a, .none a, by omega⟩

end Total

/-- Twenty bytes are enough for the header. -/
theorem fromBytes_of_header {bytes : Bytes} (h : 20 ≤ bytes.length) :
    ∃ (ack : PacketAck) (reliable ordered : Bool), fromBytes (M := M) bytes =
      (readMessages bytes (announced bytes) 20 >>= fun messages =>
        pure { ack, reliable, ordered, messages }) := by
  obtain ⟨ack, hack⟩ := PacketAck.fromBytes_of_le
    (show 14 ≤ (bytes.drop 6).length by rw [List.length_drop]; omega)
  have hcount : (UInt32.ofNat (announced bytes)).toNat = announced bytes := by
    have := fromLe_lt ((bytes.drop 2).take 4)
    have hlen : ((bytes.drop 2).take 4).length = 4 := by
      rw [List.length_take, List.length_drop]; omega
    rw [hlen] at this
    rw [UInt32.toNat_ofNat']
    exact Nat.mod_eq_of_lt this
  have hs : suffixFrom bytes 6 = .ok (bytes.drop 6) := if_pos (by omega)
  refine ⟨ack, bytes[0] == 1, bytes[1] == 1, ?_⟩
  simp only [fromBytes, readByte_of_lt (show 0 < bytes.length by omega),
    readByte_of_lt (show 1 < bytes.length by omega),
    readU32_of_le (show 2 + 4 ≤ bytes.length by omega), hs, hack, Outcome.bind_ok,
    PacketAck.byteLen]
  rw [← announced, hcount]

theorem fromBytes_short {bytes : Bytes} (h : bytes.length < 20) :
    fromBytes (M := M) bytes = .err .sliceTooShort := by
  unfold fromBytes
  by_cases h0 : 0 < bytes.length
  · rw [readByte_of_lt h0, Outcome.bind_ok]
    by_cases h1 : 1 < bytes.length
    · rw [readByte_of_lt h1, Outcome.bind_ok]
      by_cases h6 : 6 ≤ bytes.length
      · have hs : suffixFrom bytes 6 = .ok (bytes.drop 6) := if_pos h6
        rw [readU32_of_le (by omega), Outcome.bind_ok, hs, Outcome.bind_ok,
          PacketAck.fromBytes_short (by rw [List.length_drop]; omega)]
        rfl
      · rw [readU32_short (by omega)]; rfl
    · rw [readByte_short (by omega)]; rfl
  · rw [readByte_short (by omega)]; rfl

/-- Decoding panics just on bytes that overrun, and always ends. -/
theorem fromBytes_returns_iff (total : ∀ bytes, (ByteRepr.fromBytes bytes : Res M).returns = true)
    (bytes : Bytes) : (fromBytes (M := M) bytes).returns = true ↔ ¬ Overruns M bytes := by
  by_cases h : 20 ≤ bytes.length
  · obtain ⟨ack, reliable, ordered, e⟩ := fromBytes_of_header (M := M) h
    rw [e]
    rcases readMessages_cases total bytes (announced bytes) 20 with ⟨hret, hno⟩ | ⟨hpanic, hover⟩
    · refine iff_of_true ?_ fun ho => hno ho.2
      cases hm : readMessages (M := M) bytes (announced bytes) 20 <;> simp [hm] at hret ⊢
    · rw [hpanic]
      exact iff_of_false (by simp) fun hno => hno ⟨h, hover⟩
  · rw [fromBytes_short (by omega)]
    exact iff_of_true rfl fun ho => h ho.1

end Packet

end MiniUdp
