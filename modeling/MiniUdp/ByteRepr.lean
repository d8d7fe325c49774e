import MiniUdp.Lib.LittleEndian
import MiniUdp.Lib.Outcome

/-!
# Byte representations

`ByteRepr M` is the trait of the types that can be written to and read from
bytes. A writer changes a mutable slice in place and keeps its length, so
`writeToBytes` returns the new content next to its result. Checked accesses
(`get`, `get_mut`) fail with an error, indexing past the end panics.
-/

namespace MiniUdp

inductive ByteReprError where
  | sliceTooShort
  | invalidValue
  deriving DecidableEq, Repr

abbrev Res := Outcome ByteReprError

class ByteRepr (M : Type) where
  minByteLen : Nat
  maxByteLen : Nat
  byteLen : M → Nat
  writeToBytes : M → Bytes → Bytes × Res Unit
  fromBytes : Bytes → Res M
  /-- A mutable slice keeps its length. -/
  length_writeToBytes : ∀ m bytes, (writeToBytes m bytes).1.length = bytes.length

/-! ## Reading -/

/-- `bytes.get(a..a + w)`, or the error for a slice that is too short. -/
def readRange (bytes : Bytes) (a w : Nat) : Res Bytes :=
  if a + w ≤ bytes.length then .ok ((bytes.drop a).take w) else .err .sliceTooShort

/-- `*bytes.get(a)`, or the error for a slice that is too short. -/
def readByte (bytes : Bytes) (a : Nat) : Res UInt8 :=
  match bytes[a]? with
  | some b => .ok b
  | none => .err .sliceTooShort

def readU16 (bytes : Bytes) (a : Nat) : Res UInt16 := do
  let bs ← readRange bytes a 2
  pure (UInt16.ofNat (fromLe bs))

def readU32 (bytes : Bytes) (a : Nat) : Res UInt32 := do
  let bs ← readRange bytes a 4
  pure (UInt32.ofNat (fromLe bs))

/-- `&bytes[a..]`. -/
def suffixFrom (bytes : Bytes) (a : Nat) : Res Bytes :=
  if a ≤ bytes.length then .ok (bytes.drop a) else .panic

/-- `&bytes[a..b]`. -/
def sliceOf (bytes : Bytes) (a b : Nat) : Res Bytes :=
  if a ≤ b ∧ b ≤ bytes.length then .ok ((bytes.take b).drop a) else .panic

/-! ## Writing -/

/-- Code that changes a mutable slice in place. -/
def Write (α : Type) := Bytes → Bytes × Res α

namespace Write

def bind {α β : Type} (x : Write α) (f : α → Write β) : Write β := fun bytes =>
  match x bytes with
  | (bytes, .ok a) => f a bytes
  | (bytes, .err e) => (bytes, .err e)
  | (bytes, .panic) => (bytes, .panic)
  | (bytes, .hang) => (bytes, .hang)

instance : Monad Write where
  pure a := fun bytes => (bytes, .ok a)
  bind := bind

instance : LawfulMonad Write := LawfulMonad.mk' Write
  (fun x => funext fun bytes => by
    show Write.bind x (fun a => pure a) bytes = x bytes
    unfold Write.bind
    split <;> rename_i h <;> exact h.symm)
  (fun _ _ => rfl)
  (fun x f g => funext fun bytes => by
    show Write.bind (Write.bind x f) g bytes = Write.bind x (fun a => Write.bind (f a) g) bytes
    unfold Write.bind
    rcases x bytes with ⟨bytes, _ | _ | _ | _⟩ <;> rfl)

/-- `bytes.get_mut(a..a + bs.len()).ok_or(..)?.copy_from_slice(bs)` -/
def range (a : Nat) (bs : Bytes) : Write Unit := fun bytes =>
  if a + bs.length ≤ bytes.length then
    (bytes.take a ++ bs ++ bytes.drop (a + bs.length), .ok ())
  else (bytes, .err .sliceTooShort)

/-- `*bytes.get_mut(a).ok_or(..)? = b` -/
def byte (a : Nat) (b : UInt8) : Write Unit := range a [b]

/-- Write to `&mut bytes[a..]`. -/
def suffix (a : Nat) (w : Write Unit) : Write Unit := fun bytes =>
  if a ≤ bytes.length then
    let (rest, result) := w (bytes.drop a)
    (bytes.take a ++ rest, result)
  else (bytes, .panic)

theorem length_range (a : Nat) (bs bytes : Bytes) :
    (range a bs bytes).1.length = bytes.length := by
  unfold range
  split
  · simp; omega
  · rfl

theorem length_suffix (a : Nat) {w : Write Unit}
    (h : ∀ bytes, (w bytes).1.length = bytes.length) (bytes : Bytes) :
    (suffix a w bytes).1.length = bytes.length := by
  unfold suffix
  split
  · simp [h]; omega
  · rfl

/-- The second of two writers decides nothing about the length if it keeps it. -/
theorem length_bind {w v : Write Unit} (h : ∀ bytes, (v bytes).1.length = bytes.length)
    (bytes : Bytes) : ((do w; v : Write Unit) bytes).1.length = (w bytes).1.length := by
  show (Write.bind w (fun _ => v) bytes).1.length = _
  unfold Write.bind
  split
  · rename_i e; rw [h, e]
  all_goals rename_i e; rw [e]

end Write

/-! ## What a writer writes -/

/-- On every slice that is long enough, `w` puts `bs` at offset `a` and changes nothing else. -/
def Writes (w : Write Unit) (a : Nat) (bs : Bytes) : Prop :=
  ∀ bytes : Bytes, a + bs.length ≤ bytes.length →
    w bytes = (bytes.take a ++ bs ++ bytes.drop (a + bs.length), .ok ())

namespace Writes

theorem range (a : Nat) (bs : Bytes) : Writes (.range a bs) a bs := fun _ h => if_pos h

theorem pure (a : Nat) : Writes (Pure.pure ()) a [] := fun bytes _ => by
  show (bytes, _) = _
  simp

/-- Two writers in a row write next to each other. -/
theorem seq {w v : Write Unit} {a : Nat} {bs cs : Bytes} (hw : Writes w a bs)
    (hv : Writes v (a + bs.length) cs) : Writes (do w; v) a (bs ++ cs) := fun bytes h => by
  rw [List.length_append] at h
  have hmid : (bytes.take a ++ bs ++ bytes.drop (a + bs.length)).length = bytes.length := by
    simp; omega
  have e : (do w; v : Write Unit) bytes = v (bytes.take a ++ bs ++ bytes.drop (a + bs.length)) := by
    show Write.bind w (fun _ => v) bytes = _
    rw [Write.bind, hw bytes (by omega)]
  have hlen : (bytes.take a ++ bs).length = a + bs.length := by simp; omega
  rw [e, hv _ (by omega), ← hlen, List.take_left, ← List.drop_drop, List.drop_left, List.drop_drop,
    hlen, List.length_append, Nat.add_assoc]
  simp only [List.append_assoc]

/-- Writing to a part of the slice. -/
theorem suffix {w : Write Unit} {b : Nat} {bs : Bytes} (a : Nat) (hw : Writes w b bs) :
    Writes (.suffix a w) (a + b) bs := fun bytes h => by
  simp only [Write.suffix, if_pos (show a ≤ bytes.length by omega)]
  rw [hw _ (by rw [List.length_drop]; omega)]
  simp [List.take_add, List.drop_drop, Nat.add_assoc]

end Writes

/-- A codec that can be relied on: the value determines the bytes written, exactly `byteLen` of
them, and reading a slice that starts with them gives the value back. -/
class LawfulByteRepr (M : Type) [ByteRepr M] where
  encode : M → Bytes
  length_encode : ∀ m, (encode m).length = ByteRepr.byteLen m
  writes : ∀ m, Writes (ByteRepr.writeToBytes m) 0 (encode m)
  fromBytes_encode : ∀ m rest, ByteRepr.fromBytes (encode m ++ rest) = .ok m

/-! ## `derive_for!(bool)` -/

def flag (b : Bool) : UInt8 := if b then 1 else 0

theorem flag_beq_one (b : Bool) : (flag b == 1) = b := by cases b <;> rfl

instance : ByteRepr Bool where
  minByteLen := 1
  maxByteLen := 1
  byteLen _ := 1
  writeToBytes b := Write.byte 0 (flag b)
  fromBytes bytes := do
    let byte ← readByte bytes 0
    pure (byte == 1)
  length_writeToBytes _ _ := Write.length_range _ _ _

instance : LawfulByteRepr Bool where
  encode b := [flag b]
  length_encode _ := rfl
  writes b := .range 0 [flag b]
  fromBytes_encode b _ := congrArg Outcome.ok (flag_beq_one b)

/-! ## Reading what was written -/

theorem readRange_append {pre bs rest : Bytes} {a w : Nat} (ha : pre.length = a)
    (hw : bs.length = w) : readRange (pre ++ bs ++ rest) a w = .ok bs := by
  subst ha hw
  simp [readRange]

theorem readU16_append (pre rest : Bytes) {a : Nat} (v : UInt16) (ha : pre.length = a) :
    readU16 (pre ++ toLe 2 v.toNat ++ rest) a = .ok v := by
  rw [readU16, readRange_append ha (length_toLe 2 _), Outcome.bind_ok,
    fromLe_toLe_of_lt (show v.toNat < 256 ^ 2 from v.toNat_lt), UInt16.ofNat_toNat]
  rfl

theorem readU32_append (pre rest : Bytes) {a : Nat} (v : UInt32) (ha : pre.length = a) :
    readU32 (pre ++ toLe 4 v.toNat ++ rest) a = .ok v := by
  rw [readU32, readRange_append ha (length_toLe 4 _), Outcome.bind_ok,
    fromLe_toLe_of_lt (show v.toNat < 256 ^ 4 from v.toNat_lt), UInt32.ofNat_toNat]
  rfl

theorem readU16_of_le {bytes : Bytes} {a : Nat} (h : a + 2 ≤ bytes.length) :
    readU16 bytes a = .ok (UInt16.ofNat (fromLe ((bytes.drop a).take 2))) := by
  rw [readU16, readRange, if_pos h]; rfl

theorem readU32_of_le {bytes : Bytes} {a : Nat} (h : a + 4 ≤ bytes.length) :
    readU32 bytes a = .ok (UInt32.ofNat (fromLe ((bytes.drop a).take 4))) := by
  rw [readU32, readRange, if_pos h]; rfl

theorem readByte_of_lt {bytes : Bytes} {a : Nat} (h : a < bytes.length) :
    readByte bytes a = .ok bytes[a] := by
  rw [readByte, List.getElem?_eq_getElem h]

theorem readU16_short {bytes : Bytes} {a : Nat} (h : bytes.length < a + 2) :
    readU16 bytes a = .err .sliceTooShort := by
  rw [readU16, readRange, if_neg (by omega)]; rfl

theorem readU32_short {bytes : Bytes} {a : Nat} (h : bytes.length < a + 4) :
    readU32 bytes a = .err .sliceTooShort := by
  rw [readU32, readRange, if_neg (by omega)]; rfl

theorem readByte_short {bytes : Bytes} {a : Nat} (h : bytes.length ≤ a) :
    readByte bytes a = .err .sliceTooShort := by
  rw [readByte, List.getElem?_eq_none h]

theorem suffixFrom_append (pre rest : Bytes) {a : Nat} (ha : pre.length = a) :
    suffixFrom (pre ++ rest) a = .ok rest := by
  subst ha
  simp [suffixFrom]

end MiniUdp
