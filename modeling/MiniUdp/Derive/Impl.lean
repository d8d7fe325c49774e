import MiniUdp.Derive.Codec

/-!
# Code over any impl

The code for a field whose type is a parameter calls the impl of whatever type
the parameter stands for. So the code for a struct is put together here from
the code for its fields, and a field may have any impl. On types it is the
codec (`Ty.impl_struct`).
-/

namespace MiniUdp.Derive

variable {α β : Type}

/-- The functions of an impl of `ByteRepr`. -/
structure Impl (α : Type) where
  byteLen : α → Nat
  writeToBytes : α → Write Unit
  fromBytes : Bytes → Res α

namespace Impl

def of (M : Type) [ByteRepr M] : Impl M where
  byteLen := ByteRepr.byteLen
  writeToBytes := ByteRepr.writeToBytes
  fromBytes := ByteRepr.fromBytes

/-- One impl is the other, on the values that `f` gives. -/
structure Agrees (i : Impl α) (j : Impl β) (f : β → α) : Prop where
  bijective : Function.Bijective f
  byteLen : ∀ x, i.byteLen (f x) = j.byteLen x
  writeToBytes : ∀ x, i.writeToBytes (f x) = j.writeToBytes x
  fromBytes : ∀ bytes, i.fromBytes bytes = f <$> j.fromBytes bytes

theorem Agrees.refl (i : Impl α) : i.Agrees i id :=
  ⟨Function.bijective_id, fun _ => rfl, fun _ => rfl, fun _ => (id_map _).symm⟩

end Impl

def Ty.impl (t : Ty) : Impl t.Val := ⟨t.byteLen, t.writeToBytes, t.fromBytes⟩

/-! ## Fields -/

/-- The code for a field. -/
structure FieldCode (α : Type) where
  Fixed : Type
  fixedBytes : Nat
  unknownLength : α → Nat
  writeFixedPart : ByteOffset → α → Nat → Write Nat
  writeVariablePart : ByteOffset → α → Nat → Write Nat
  readFixedPart : ByteOffset → Bytes → Nat → Res (Fixed × Nat)
  readVariablePart : ByteOffset → Fixed → Bytes → Nat → Res (α × Nat)

def Value.code (v : Value) : FieldCode v.Val where
  Fixed := v.Fixed
  fixedBytes := v.fixedBytes
  unknownLength := v.unknownLength
  writeFixedPart := v.writeFixedPart
  writeVariablePart := v.writeVariablePart
  readFixedPart := v.readFixedPart
  readVariablePart := v.readVariablePart

namespace FieldCode

/-- A field of a type with the impl. -/
def delegated (i : Impl α) : FieldCode α where
  Fixed := Unit
  fixedBytes := 0
  unknownLength := i.byteLen
  writeFixedPart _ _ bytePtr := pure bytePtr
  writeVariablePart _ x bytePtr := do
    Write.suffix bytePtr (i.writeToBytes x)
    pure (bytePtr + i.byteLen x)
  readFixedPart _ _ bytePtr := pure ((), bytePtr)
  readVariablePart _ _ bytes bytePtr := do
    let rest ← suffixFrom bytes bytePtr
    let x ← i.fromBytes rest
    pure (x, bytePtr + i.byteLen x)

/-- A vector of items with the impl. -/
def vec (i : Impl α) : FieldCode (List α) where
  Fixed := Nat
  fixedBytes := 4
  unknownLength xs := (xs.map i.byteLen).sum
  writeFixedPart o xs bytePtr := do
    Write.range (o.get bytePtr) (lenBytes xs.length)
    pure (o.next 4 bytePtr)
  writeVariablePart _ xs bytePtr := writeItems i.writeToBytes i.byteLen xs bytePtr
  readFixedPart o bytes bytePtr := do
    let len ← readLen bytes (o.get bytePtr)
    pure (len, o.next 4 bytePtr)
  readVariablePart _ len bytes bytePtr := do
    let (xs, bytePtr) ← readItems i.fromBytes i.byteLen bytes len bytePtr
    pure (xs.val, bytePtr)

end FieldCode

theorem Value.code_delegated (t : Ty) : (Value.delegated t).code = .delegated t.impl := rfl

theorem Value.code_vec (t : Ty) : (Value.vec t).code = .vec t.impl := rfl

/-! ## Structs -/

/-- The code for fields in a row. -/
structure FieldsCode (α : Type) where
  Fixed : Type
  fixedBytes : Nat
  unknownLength : α → Nat
  writeFixedPart : Nat → α → Write Unit
  writeVariablePart : Nat → α → Nat → Write Nat
  readFixedPart : Nat → Bytes → Res Fixed
  readVariablePart : Nat → Fixed → Bytes → Nat → Res (α × Nat)

def Fields.code (fs : Fields) : FieldsCode fs.Val where
  Fixed := fs.Fixed
  fixedBytes := fs.fixedBytes
  unknownLength := fs.unknownLength
  writeFixedPart := fs.writeFixedPart
  writeVariablePart := fs.writeVariablePart
  readFixedPart := fs.readFixedPart
  readVariablePart := fs.readVariablePart

namespace FieldsCode

def nil : FieldsCode Unit where
  Fixed := Unit
  fixedBytes := 0
  unknownLength _ := 0
  writeFixedPart _ _ := pure ()
  writeVariablePart _ _ bytePtr := pure bytePtr
  readFixedPart _ _ := pure ()
  readVariablePart _ _ _ bytePtr := pure ((), bytePtr)

def cons (v : FieldCode α) (fs : FieldsCode β) : FieldsCode (α × β) where
  Fixed := v.Fixed × fs.Fixed
  fixedBytes := v.fixedBytes + fs.fixedBytes
  unknownLength x := v.unknownLength x.1 + fs.unknownLength x.2
  writeFixedPart offset x := do
    let _ ← v.writeFixedPart (.static offset) x.1 0
    fs.writeFixedPart (offset + v.fixedBytes) x.2
  writeVariablePart offset x bytePtr := do
    let bytePtr ← v.writeVariablePart (.static offset) x.1 bytePtr
    fs.writeVariablePart (offset + v.fixedBytes) x.2 bytePtr
  readFixedPart offset bytes := do
    let (f, _) ← v.readFixedPart (.static offset) bytes 0
    let rest ← fs.readFixedPart (offset + v.fixedBytes) bytes
    pure (f, rest)
  readVariablePart offset f bytes bytePtr := do
    let (x, bytePtr) ← v.readVariablePart (.static offset) f.1 bytes bytePtr
    let (xs, bytePtr) ← fs.readVariablePart (offset + v.fixedBytes) f.2 bytes bytePtr
    pure ((x, xs), bytePtr)

/-- The impl for a struct with the fields. -/
def struct (fs : FieldsCode α) : Impl α where
  byteLen x := fs.fixedBytes + fs.unknownLength x
  writeToBytes x := do
    fs.writeFixedPart 0 x
    let _ ← fs.writeVariablePart 0 x fs.fixedBytes
    pure ()
  fromBytes bytes := value do
    let f ← fs.readFixedPart 0 bytes
    fs.readVariablePart 0 f bytes fs.fixedBytes

end FieldsCode

theorem Fields.code_nil : Fields.nil.code = .nil := rfl

theorem Fields.code_cons (v : Value) (fs : Fields) :
    (Fields.cons v fs).code = .cons v.code fs.code := rfl

theorem Ty.impl_struct (fs : Fields) : (Ty.struct fs).impl = fs.code.struct := rfl

end MiniUdp.Derive
