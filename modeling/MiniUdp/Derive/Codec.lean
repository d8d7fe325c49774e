import MiniUdp.Derive.Data

/-!
# The derived codec

The code the macros generate. A field is written and read in two parts: first
the fixed part, at an offset known beforehand, then the variable part, at the
running `byte_ptr`. What is inside an `Option` has no fixed offset, so that
both its parts are at `byte_ptr`. A `Cow` reads its fixed part with the
variable one, and writes it then, too.

The codec steps by `byteLen`, where the code calls `byte_len`, which may never
return; and every field has its own header, where the code looks it up by a
name that may be another field's. The code with the calls and the names comes
later; the codec is what it does where neither matters.
-/

namespace MiniUdp.Derive

open Utf8

/-! ## Offsets and numbers -/

inductive ByteOffset where
  | static (n : Nat)
  | dynamic

namespace ByteOffset

/-- Where an access goes when `byte_ptr` is `bytePtr`. -/
def get : ByteOffset → Nat → Nat
  | static n, _ => n
  | dynamic, bytePtr => bytePtr

/-- `byte_ptr` after an access to `len` bytes. -/
def next : ByteOffset → Nat → Nat → Nat
  | static _, _, bytePtr => bytePtr
  | dynamic, len, bytePtr => bytePtr + len

end ByteOffset

namespace Number

def toLeBytes (n : Number) (x : BitVec (8 * n.bytes)) : Bytes := toLe n.bytes x.toNat

def fromLeBytes (n : Number) (bs : Bytes) : BitVec (8 * n.bytes) := BitVec.ofNat _ (fromLe bs)

/-- A number of one byte is read as a byte, others as a range. -/
def read (n : Number) (bytes : Bytes) (a : Nat) : Res (BitVec (8 * n.bytes)) :=
  if n.bytes = 1 then do
    let byte ← readByte bytes a
    pure (n.fromLeBytes [byte])
  else do
    let bs ← readRange bytes a n.bytes
    pure (n.fromLeBytes bs)

end Number

/-- The header of a string or a vector. -/
def lenBytes (len : Nat) : Bytes := toLe 4 (UInt32.ofNat len).toNat

/-! ## Items in a row -/

section Items

variable {α : Type}

/-- Write every item to `&mut bytes[byte_ptr..]`, one after the other. -/
def writeItems (write : α → Write Unit) (byteLen : α → Nat) : List α → Nat → Write Nat
  | [], bytePtr => pure bytePtr
  | item :: items, bytePtr => do
    Write.suffix bytePtr (write item)
    writeItems write byteLen items (bytePtr + byteLen item)

/-- Read `n` items from `&bytes[byte_ptr..]`, one after the other. The loop over an array goes on
after an error, but reads no more and returns the error in the end. -/
def readItems (fromBytes : Bytes → Res α) (byteLen : α → Nat) (bytes : Bytes) :
    (n : Nat) → Nat → Res ({ xs : List α // xs.length = n } × Nat)
  | 0, bytePtr => pure (⟨[], rfl⟩, bytePtr)
  | n + 1, bytePtr => do
    let rest ← suffixFrom bytes bytePtr
    let item ← fromBytes rest
    let (items, bytePtr) ← readItems fromBytes byteLen bytes n (bytePtr + byteLen item)
    pure (⟨item :: items.val, congrArg (· + 1) items.property⟩, bytePtr)

end Items

/-! ## Writing -/

/-- `write_fixed_part`, with the `byte_ptr` after it. -/
def Value.writeFixedPart : (v : Value) → ByteOffset → v.Val → Nat → Write Nat
  | .emptyTuple, _, _, bytePtr => pure bytePtr
  | .bool, o, b, bytePtr => do
    Write.byte (o.get bytePtr) (flag b)
    pure (o.next 1 bytePtr)
  | .number n, o, x, bytePtr => do
    Write.range (o.get bytePtr) (n.toLeBytes x)
    pure (o.next n.bytes bytePtr)
  | .string, o, s, bytePtr => do
    Write.range (o.get bytePtr) (lenBytes (asBytes s).length)
    pure (o.next 4 bytePtr)
  -- the number inside, by auto-deref
  | .cow v, o, x, bytePtr =>
    if v.isStatic then v.writeFixedPart o x.get bytePtr else pure bytePtr
  | .option _, o, x, bytePtr => do
    Write.byte (o.get bytePtr) (flag x.isSome)
    pure (o.next 1 bytePtr)
  | .array _ _, _, _, bytePtr => pure bytePtr
  | .vec _, o, xs, bytePtr => do
    Write.range (o.get bytePtr) (lenBytes xs.length)
    pure (o.next 4 bytePtr)
  | .delegated _, _, _, bytePtr => pure bytePtr

def Fields.writeFixedPart : (fs : Fields) → Nat → fs.Val → Write Unit
  | .nil, _, _ => pure ()
  | .cons v fs, offset, (x, xs) => do
    let _ ← v.writeFixedPart (.static offset) x 0
    fs.writeFixedPart (offset + v.fixedBytes) xs

mutual

/-- `write_variable_part`, with the `byte_ptr` after it. -/
def Value.writeVariablePart : (v : Value) → ByteOffset → v.Val → Nat → Write Nat
  | .emptyTuple, _, _, bytePtr | .bool, _, _, bytePtr | .number _, _, _, bytePtr => pure bytePtr
  | .string, _, s, bytePtr => do
    Write.range bytePtr (asBytes s)
    pure (bytePtr + (asBytes s).length)
  | .cow v, o, x, bytePtr => do
    let bytePtr ← v.writeFixedPart o x.get bytePtr
    v.writeVariablePart o x.get bytePtr
  | .option v, _, some x, bytePtr => do
    let bytePtr ← v.writeFixedPart .dynamic x bytePtr
    v.writeVariablePart .dynamic x bytePtr
  | .option _, _, none, bytePtr => pure bytePtr
  | .array t _, _, xs, bytePtr => writeItems t.writeToBytes t.byteLen xs.val bytePtr
  | .vec t, _, xs, bytePtr => writeItems t.writeToBytes t.byteLen xs bytePtr
  | .delegated t, _, x, bytePtr => do
    Write.suffix bytePtr (t.writeToBytes x)
    pure (bytePtr + t.byteLen x)

/-- `write_to_bytes` -/
def Ty.writeToBytes : (t : Ty) → t.Val → Write Unit
  | .lone v, x => do
    let _ ← v.writeFixedPart (.static 0) x 0
    let _ ← v.writeVariablePart (.static 0) x v.fixedBytes
    pure ()
  | .struct fs, x => do
    fs.writeFixedPart 0 x
    let _ ← fs.writeVariablePart 0 x fs.fixedBytes
    pure ()
  | .enum vs, x => do
    let variantId ← vs.write vs.variantLen x
    if vs.length ≤ 1 then pure () else Write.byte 0 (UInt8.ofNat variantId)

def Fields.writeVariablePart : (fs : Fields) → Nat → fs.Val → Nat → Write Nat
  | .nil, _, _, bytePtr => pure bytePtr
  | .cons v fs, offset, (x, xs), bytePtr => do
    let bytePtr ← v.writeVariablePart (.static offset) x bytePtr
    fs.writeVariablePart (offset + v.fixedBytes) xs bytePtr

/-- The fields of a variant from the offset `variantLen` on; the result is its number. -/
def Variants.write : (vs : Variants) → Nat → vs.Val → Write Nat
  | .nil, _, x => nomatch x
  | .cons fs _, variantLen, .inl x => do
    fs.writeFixedPart variantLen x
    let _ ← fs.writeVariablePart variantLen x (variantLen + fs.fixedBytes)
    pure 0
  | .cons _ vs, variantLen, .inr x => do
    let variantId ← vs.write variantLen x
    pure (variantId + 1)

end

/-! ## Reading -/

/-- What `read_fixed_part` binds: the value, or the part of it that is needed later. -/
@[reducible] def Value.Fixed : Value → Type
  | .emptyTuple | .cow _ | .array _ _ | .delegated _ => Unit
  | .bool | .option _ => Bool
  | .number n => BitVec (8 * n.bytes)
  | .string | .vec _ => Nat

@[reducible] def Fields.Fixed : Fields → Type
  | .nil => Unit
  | .cons v fs => v.Fixed × fs.Fixed

/-- The length of a string or a vector. -/
def readLen (bytes : Bytes) (a : Nat) : Res Nat := do
  let bs ← readRange bytes a 4
  pure (fromLe bs)

/-- A flag, set when it is 1. -/
def readFlag (bytes : Bytes) (a : Nat) : Res Bool := do
  let byte ← readByte bytes a
  pure (byte == 1)

/-- `read_fixed_part`, with the `byte_ptr` after it. -/
def Value.readFixedPart : (v : Value) → ByteOffset → Bytes → Nat → Res (v.Fixed × Nat)
  | .emptyTuple, _, _, bytePtr | .cow _, _, _, bytePtr | .array _ _, _, _, bytePtr
  | .delegated _, _, _, bytePtr => pure ((), bytePtr)
  | .bool, o, bytes, bytePtr | .option _, o, bytes, bytePtr => do
    let b ← readFlag bytes (o.get bytePtr)
    pure (b, o.next 1 bytePtr)
  | .number n, o, bytes, bytePtr => do
    let x ← n.read bytes (o.get bytePtr)
    pure (x, o.next n.bytes bytePtr)
  | .string, o, bytes, bytePtr | .vec _, o, bytes, bytePtr => do
    let len ← readLen bytes (o.get bytePtr)
    pure (len, o.next 4 bytePtr)

def Fields.readFixedPart : (fs : Fields) → Nat → Bytes → Res fs.Fixed
  | .nil, _, _ => pure ()
  | .cons v fs, offset, bytes => do
    let (f, _) ← v.readFixedPart (.static offset) bytes 0
    let rest ← fs.readFixedPart (offset + v.fixedBytes) bytes
    pure (f, rest)

/-- `String::from_utf8_lossy(&bytes[byte_ptr..byte_ptr + len])`, with the `byte_ptr` after it. -/
def readString (len : Nat) (bytes : Bytes) (bytePtr : Nat) : Res (String × Nat) := do
  let bs ← sliceOf bytes bytePtr (bytePtr + len)
  pure (fromUtf8Lossy bs, bytePtr + len)

/-- The value read, without the `byte_ptr`. -/
def value {α : Type} (r : Res (α × Nat)) : Res α := do
  let (x, _) ← r
  pure x

mutual

/-- `read_variable_part`, with the `byte_ptr` after it. -/
def Value.readVariablePart :
    (v : Value) → ByteOffset → v.Fixed → Bytes → Nat → Res (v.Val × Nat)
  | .emptyTuple, _, x, _, bytePtr | .bool, _, x, _, bytePtr | .number _, _, x, _, bytePtr =>
    pure (x, bytePtr)
  | .string, _, len, bytes, bytePtr => readString len bytes bytePtr
  | .cow v, o, _, bytes, bytePtr => do
    let (f, bytePtr) ← v.readFixedPart o bytes bytePtr
    let (x, bytePtr) ← v.readVariablePart o f bytes bytePtr
    pure (Cow.owned x, bytePtr)
  | .option v, _, isSome, bytes, bytePtr =>
    match isSome with
    | true => do
      let (f, bytePtr) ← v.readFixedPart .dynamic bytes bytePtr
      let (x, bytePtr) ← v.readVariablePart .dynamic f bytes bytePtr
      pure (some x, bytePtr)
    | false => pure (none, bytePtr)
  | .array t length, _, _, bytes, bytePtr =>
    readItems (fun bytes => value (t.read bytes)) t.byteLen bytes length bytePtr
  | .vec t, _, len, bytes, bytePtr => do
    let (xs, bytePtr) ← readItems (fun bytes => value (t.read bytes)) t.byteLen bytes len bytePtr
    pure (xs.val, bytePtr)
  | .delegated t, _, _, bytes, bytePtr => do
    let rest ← suffixFrom bytes bytePtr
    let x ← value (t.read rest)
    pure (x, bytePtr + t.byteLen x)

/-- `from_bytes`, with the `byte_ptr` in the end. -/
def Ty.read : (t : Ty) → Bytes → Res (t.Val × Nat)
  | .lone v, bytes => do
    let (f, _) ← v.readFixedPart (.static 0) bytes 0
    v.readVariablePart (.static 0) f bytes v.fixedBytes
  | .struct fs, bytes => do
    let f ← fs.readFixedPart 0 bytes
    fs.readVariablePart 0 f bytes fs.fixedBytes
  | .enum vs, bytes =>
    if vs.length ≤ 1 then vs.read vs.variantLen 0 bytes
    else do
      let variantId ← readByte bytes 0
      vs.read vs.variantLen variantId.toNat bytes

def Fields.readVariablePart :
    (fs : Fields) → Nat → fs.Fixed → Bytes → Nat → Res (fs.Val × Nat)
  | .nil, _, _, _, bytePtr => pure ((), bytePtr)
  | .cons v fs, offset, (f, rest), bytes, bytePtr => do
    let (x, bytePtr) ← v.readVariablePart (.static offset) f bytes bytePtr
    let (xs, bytePtr) ← fs.readVariablePart (offset + v.fixedBytes) rest bytes bytePtr
    pure ((x, xs), bytePtr)

/-- The variant with the number `variantId`, its fields from the offset `variantLen` on. -/
def Variants.read : (vs : Variants) → Nat → Nat → Bytes → Res (vs.Val × Nat)
  | .nil, _, _, _ => .err .invalidValue
  | .cons fs _, variantLen, 0, bytes => do
    let f ← fs.readFixedPart variantLen bytes
    let (x, bytePtr) ← fs.readVariablePart variantLen f bytes (variantLen + fs.fixedBytes)
    pure (.inl x, bytePtr)
  | .cons _ vs, variantLen, variantId + 1, bytes => do
    let (x, bytePtr) ← vs.read variantLen variantId bytes
    pure (.inr x, bytePtr)

end

/-- `from_bytes` -/
def Ty.fromBytes (t : Ty) (bytes : Bytes) : Res t.Val := value (t.read bytes)

end MiniUdp.Derive
