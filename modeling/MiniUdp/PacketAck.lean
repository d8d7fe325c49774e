import MiniUdp.ByteRepr
import MiniUdp.RingBuffer
import Mathlib.Data.Nat.Bitwise

/-!
# Packet acknowledgements

Every packet carries, for each of the two reliable channels, the newest
received number and a bit for each of the 32 numbers that end there.
-/

namespace MiniUdp

open Serial

structure PacketAck where
  /-- The number of the packet that carries this acknowledgement. -/
  sequenceId : UInt16
  reliableNewestReceived : UInt16
  reliableAckBits : UInt32
  orderedNewestReceived : UInt16
  orderedAckBits : UInt32
  deriving DecidableEq, Repr

/-- One bit for each key, by its distance to the newest number. -/
def ackBits (newest : UInt16) (keys : List UInt16) : UInt32 :=
  keys.foldl (fun bits i => bits ||| ((1 : UInt32) <<< (newest - i).toUInt32)) 0

/-- Take every item out of a window whose bit is set: one of the two halves of `acknowledge`. -/
def takeAcked {T : Type} (newest : UInt16) (bits : UInt32) (r : RingBuffer T 32) :
    RingBuffer T 32 :=
  (List.range 32).foldl (fun r i =>
    if bits &&& ((1 : UInt32) <<< UInt32.ofNat i) != 0 then (r.take (newest - UInt16.ofNat i)).2
    else r) r

namespace PacketAck

def new {T : Type} (sequenceId : UInt16) (reliableReceived : RingBuffer Unit 32)
    (orderedReceived : RingBuffer T 32) : PacketAck :=
  let reliableNewestReceived := reliableReceived.getNewestIndex
  let orderedNewestReceived := orderedReceived.getNewestIndex
  { sequenceId
    reliableNewestReceived
    reliableAckBits := ackBits reliableNewestReceived reliableReceived.keys
    orderedNewestReceived
    orderedAckBits := ackBits orderedNewestReceived orderedReceived.keys }

/-! ## The derived byte representation -/

def byteLen (_ : PacketAck) : Nat := 14

def writeToBytes (ack : PacketAck) : Write Unit := do
  .range 0 (toLe 2 ack.sequenceId.toNat)
  .range 2 (toLe 2 ack.reliableNewestReceived.toNat)
  .range 4 (toLe 4 ack.reliableAckBits.toNat)
  .range 8 (toLe 2 ack.orderedNewestReceived.toNat)
  .range 10 (toLe 4 ack.orderedAckBits.toNat)

def fromBytes (bytes : Bytes) : Res PacketAck := do
  let sequenceId ← readU16 bytes 0
  let reliableNewestReceived ← readU16 bytes 2
  let reliableAckBits ← readU32 bytes 4
  let orderedNewestReceived ← readU16 bytes 8
  let orderedAckBits ← readU32 bytes 10
  pure { sequenceId, reliableNewestReceived, reliableAckBits, orderedNewestReceived, orderedAckBits }

def encode (ack : PacketAck) : Bytes :=
  toLe 2 ack.sequenceId.toNat ++ (toLe 2 ack.reliableNewestReceived.toNat ++
    (toLe 4 ack.reliableAckBits.toNat ++ (toLe 2 ack.orderedNewestReceived.toNat ++
      toLe 4 ack.orderedAckBits.toNat)))

@[simp] theorem length_encode (ack : PacketAck) : ack.encode.length = 14 := by simp [encode]

theorem writes (ack : PacketAck) : Writes ack.writeToBytes 0 ack.encode := by
  refine .seq (.range 0 _) ?_
  refine .seq (by simpa using .range 2 _) ?_
  refine .seq (by simpa using .range 4 _) ?_
  refine .seq (by simpa using .range 8 _) ?_
  simpa using .range 10 _

theorem fromBytes_encode (ack : PacketAck) (rest : Bytes) :
    fromBytes (ack.encode ++ rest) = .ok ack := by
  have h0 : readU16 (ack.encode ++ rest) 0 = .ok ack.sequenceId := by
    simpa [encode] using readU16_append [] _ ack.sequenceId rfl
  have h2 : readU16 (ack.encode ++ rest) 2 = .ok ack.reliableNewestReceived := by
    simpa [encode] using readU16_append (toLe 2 ack.sequenceId.toNat) _ _ (by simp)
  have h4 : readU32 (ack.encode ++ rest) 4 = .ok ack.reliableAckBits := by
    simpa [encode] using readU32_append (toLe 2 ack.sequenceId.toNat ++
      toLe 2 ack.reliableNewestReceived.toNat) _ ack.reliableAckBits (by simp)
  have h8 : readU16 (ack.encode ++ rest) 8 = .ok ack.orderedNewestReceived := by
    simpa [encode] using readU16_append (toLe 2 ack.sequenceId.toNat ++
      toLe 2 ack.reliableNewestReceived.toNat ++ toLe 4 ack.reliableAckBits.toNat) _
      ack.orderedNewestReceived (by simp)
  have h10 : readU32 (ack.encode ++ rest) 10 = .ok ack.orderedAckBits := by
    simpa [encode] using readU32_append (toLe 2 ack.sequenceId.toNat ++
      toLe 2 ack.reliableNewestReceived.toNat ++ toLe 4 ack.reliableAckBits.toNat ++
      toLe 2 ack.orderedNewestReceived.toNat) _ ack.orderedAckBits (by simp)
  simp [fromBytes, h0, h2, h4, h8, h10]

/-- Fourteen bytes are needed and enough. -/
theorem fromBytes_of_le {bytes : Bytes} (h : 14 ≤ bytes.length) :
    ∃ ack, fromBytes bytes = .ok ack := by
  simp only [fromBytes, readU16_of_le (show 0 + 2 ≤ bytes.length by omega),
    readU16_of_le (show 2 + 2 ≤ bytes.length by omega),
    readU32_of_le (show 4 + 4 ≤ bytes.length by omega),
    readU16_of_le (show 8 + 2 ≤ bytes.length by omega),
    readU32_of_le (show 10 + 4 ≤ bytes.length by omega), Outcome.bind_ok]
  exact ⟨_, rfl⟩

theorem fromBytes_short {bytes : Bytes} (h : bytes.length < 14) :
    fromBytes bytes = .err .sliceTooShort := by
  unfold fromBytes
  by_cases h2 : 2 ≤ bytes.length
  · rw [readU16_of_le (by omega), Outcome.bind_ok]
    by_cases h4 : 4 ≤ bytes.length
    · rw [readU16_of_le (by omega), Outcome.bind_ok]
      by_cases h8 : 8 ≤ bytes.length
      · rw [readU32_of_le (by omega), Outcome.bind_ok]
        by_cases h10 : 10 ≤ bytes.length
        · rw [readU16_of_le (by omega), Outcome.bind_ok, readU32_short (by omega)]; rfl
        · rw [readU16_short (by omega)]; rfl
      · rw [readU32_short (by omega)]; rfl
    · rw [readU16_short (by omega)]; rfl
  · rw [readU16_short (by omega)]; rfl

end PacketAck

/-! ## What the bits mean -/

/-- Do the bits name the item `id`? -/
def covers (newest : UInt16) (bits : UInt32) (id : UInt16) : Bool :=
  decide ((newest - id).toNat < 32) && bits.toNat.testBit (newest - id).toNat

theorem toNat_one_shiftLeft {s : UInt32} (hs : s.toNat < 32) :
    ((1 : UInt32) <<< s).toNat = 2 ^ s.toNat := by
  have h1 : (1 : UInt32).toNat = 1 := rfl
  rw [UInt32.toNat_shiftLeft, h1, Nat.mod_eq_of_lt hs, Nat.shiftLeft_eq, Nat.one_mul]
  exact Nat.mod_eq_of_lt (Nat.pow_lt_pow_right (by decide) hs)

theorem and_shiftLeft_ne_zero (bits : UInt32) {i : Nat} (hi : i < 32) :
    (bits &&& ((1 : UInt32) <<< UInt32.ofNat i) != 0) = bits.toNat.testBit i := by
  have hofi : (UInt32.ofNat i).toNat = i := by rw [UInt32.toNat_ofNat']; omega
  have h : (bits &&& ((1 : UInt32) <<< UInt32.ofNat i)).toNat =
      (bits.toNat.testBit i).toNat * 2 ^ i := by
    rw [UInt32.toNat_and, toNat_one_shiftLeft (by omega), hofi, Nat.and_two_pow]
  rw [bne, Bool.eq_iff_iff, Bool.not_eq_true', beq_eq_false_iff_ne, Ne, ← UInt32.toNat_inj, h]
  have := Nat.two_pow_pos i
  cases bits.toNat.testBit i <;> simp

theorem testBit_ackBits {newest : UInt16} {keys : List UInt16}
    (hkeys : ∀ i ∈ keys, (newest - i).toNat < 32) (d : Nat) :
    (ackBits newest keys).toNat.testBit d = true ↔ ∃ i ∈ keys, (newest - i).toNat = d := by
  suffices h : ∀ bits : UInt32, (keys.foldl (fun bits i =>
      bits ||| ((1 : UInt32) <<< (newest - i).toUInt32)) bits).toNat.testBit d = true ↔
      bits.toNat.testBit d = true ∨ ∃ i ∈ keys, (newest - i).toNat = d by
    have h0 := h 0
    rw [UInt32.toNat_zero, Nat.zero_testBit] at h0
    exact h0.trans (by simp)
  induction keys with
  | nil => simp
  | cons i keys ih =>
    intro bits
    have hi : (newest - i).toUInt32.toNat < 32 := hkeys i (by simp)
    rw [List.foldl_cons, ih fun j hj => hkeys j (by simp [hj]), UInt32.toNat_or, Nat.testBit_or,
      toNat_one_shiftLeft hi, Nat.testBit_two_pow, UInt16.toNat_toUInt32]
    simp only [Bool.or_eq_true, decide_eq_true_iff, List.exists_mem_cons_iff, or_assoc]

/-- The bits of a window name exactly its items. -/
theorem covers_ackBits {T : Type} (r : RingBuffer T 32) (id : UInt16) :
    covers r.newest (ackBits r.newest r.keys) id = (r.get id).isSome := by
  have hkeys : ∀ i ∈ r.keys, (r.newest - i).toNat < 32 := fun i hi => by
    obtain ⟨x, hx⟩ := Option.isSome_iff_exists.mp (RingBuffer.mem_keys.mp hi)
    exact RingBuffer.dist_of_get hx
  rw [Bool.eq_iff_iff, covers, Bool.and_eq_true, decide_eq_true_iff, testBit_ackBits hkeys,
    ← RingBuffer.mem_keys]
  constructor
  · rintro ⟨-, i, hi, e⟩
    rwa [← eq_of_dist_eq e]
  · exact fun h => ⟨hkeys id h, id, h, rfl⟩

section TakeAcked

variable {T : Type} (newest : UInt16) (bits : UInt32) (r : RingBuffer T 32)

@[simp] theorem newest_takeAcked : (takeAcked newest bits r).newest = r.newest := by
  unfold takeAcked
  generalize List.range 32 = l
  induction l generalizing r with
  | nil => rfl
  | cons i l ih => rw [List.foldl_cons, ih]; split <;> simp

theorem get_takeAcked (id : UInt16) :
    (takeAcked newest bits r).get id = if covers newest bits id then none else r.get id := by
  have hcovers : covers newest bits id = true ↔ ∃ i ∈ List.range 32,
      bits.toNat.testBit i = true ∧ id = newest - UInt16.ofNat i := by
    simp only [covers, Bool.and_eq_true, decide_eq_true_iff, List.mem_range]
    constructor
    · rintro ⟨hd, hb⟩
      refine ⟨_, hd, hb, eq_of_dist_eq (n := newest) ?_⟩
      rw [dist_sub_right, dist_self, UInt16.toNat_ofNat']
      omega
    · rintro ⟨i, hi, hb, rfl⟩
      have : (newest - (newest - UInt16.ofNat i)).toNat = i := by
        rw [dist_sub_right, dist_self, UInt16.toNat_ofNat']
        omega
      rw [this]
      exact ⟨hi, hb⟩
  rw [if_congr hcovers rfl rfl, takeAcked]
  have hl : ∀ i ∈ List.range 32, i < 32 := fun i hi => List.mem_range.mp hi
  generalize List.range 32 = l at hl
  clear hcovers
  induction l generalizing r with
  | nil => simp
  | cons i l ih =>
    rw [List.foldl_cons, ih _ fun j hj => hl j (by simp [hj]),
      and_shiftLeft_ne_zero bits (hl i (by simp))]
    by_cases hb : bits.toNat.testBit i = true
    · by_cases e : id = newest - UInt16.ofNat i
      · simp [hb, e, RingBuffer.get_take]
      · simp [hb, e, RingBuffer.get_take]
    · simp [hb]

end TakeAcked

end MiniUdp
