import MiniUdp.ByteRepr
import MiniUdp.Lib.Utf8

/-!
# Derived types

The types `ByteRepr` can be derived for, as the macros see them: `Value` is
what a field is taken for, and `Ty` is a type with an impl of its own, from
`derive_for`, of a struct or of an enum. `Val` gives the Rust values of each.
The length of a value has a fixed part, at an offset the macros know, and an
unknown one (`byteLen`). It is what `byte_len` returns, if it returns: of a
`Cow` of a type with an impl of its own it never does.
-/

namespace MiniUdp.Derive

open Utf8

/-! ## Values -/

inductive PointerWidth where
  | bits32
  | bits64
  deriving DecidableEq, Repr

def PointerWidth.bytes : PointerWidth → Nat
  | bits32 => 4
  | bits64 => 8

inductive Number where
  | u8 | i8 | u16 | i16 | u32 | i32 | f32 | u64 | i64 | f64
  | usize (target : PointerWidth) | isize (target : PointerWidth)
  | u128 | i128
  deriving DecidableEq, Repr

def Number.bytes : Number → Nat
  | u8 | i8 => 1
  | u16 | i16 => 2
  | u32 | i32 | f32 => 4
  | u64 | i64 | f64 => 8
  | usize target | isize target => target.bytes
  | u128 | i128 => 16

theorem Number.bytes_pos (n : Number) : 0 < n.bytes := by
  cases n with
  | usize target | isize target => cases target <;> decide
  | _ => decide

/-- `std::borrow::Cow` -/
inductive Cow (α : Type) where
  | borrowed (a : α)
  | owned (a : α)

def Cow.get {α : Type} : Cow α → α
  | borrowed a | owned a => a

mutual

/-- What a field is taken for by its type. -/
inductive Value where
  | emptyTuple
  | bool
  | number (n : Number)
  | string
  | cow (ty : Value)
  | option (ty : Value)
  | array (ty : Ty) (length : Nat)
  | vec (ty : Ty)
  | delegated (ty : Ty)

/-- A type with an impl of `ByteRepr`. -/
inductive Ty where
  -- `derive_for` takes the parameter of `Cow<T>`, `Option<T>` and the others for a type with an
  -- impl of its own
  | lone (value : Value)
  | struct (fields : Fields)
  | enum (variants : Variants)

inductive Fields where
  | nil
  | cons (value : Value) (rest : Fields)

inductive Variants where
  | nil
  | cons (fields : Fields) (rest : Variants)

end

mutual

/-- The values of a field; a number is its bit pattern. -/
@[reducible] def Value.Val : Value → Type
  | .emptyTuple => Unit
  | .bool => Bool
  | .number n => BitVec (8 * n.bytes)
  | .string => String
  | .cow v => Cow v.Val
  | .option v => Option v.Val
  | .array t n => { xs : List t.Val // xs.length = n }
  | .vec t => List t.Val
  | .delegated t => t.Val

@[reducible] def Ty.Val : Ty → Type
  | .lone v => v.Val
  | .struct fs => fs.Val
  | .enum vs => vs.Val

@[reducible] def Fields.Val : Fields → Type
  | .nil => Unit
  | .cons v fs => v.Val × fs.Val

@[reducible] def Variants.Val : Variants → Type
  | .nil => Empty
  | .cons fs vs => fs.Val ⊕ vs.Val

end

/-! ## Lengths -/

/-- `ByteLen::fixed_bytes` -/
def Value.fixedBytes : Value → Nat
  | .emptyTuple => 0
  | .bool => 1
  | .number n => n.bytes
  | .string => 4
  | .cow v => v.fixedBytes
  | .option _ => 1
  | .array _ _ => 0
  | .vec _ => 4
  | .delegated _ => 0

/-- `ByteLen::is_static` -/
def Value.isStatic : Value → Bool
  | .emptyTuple | .bool | .number _ => true
  | .cow v => v.isStatic
  | .string | .option _ | .array _ _ | .vec _ | .delegated _ => false

def Value.isCow : Value → Bool
  | .cow _ => true
  | _ => false

def Fields.fixedBytes : Fields → Nat
  | .nil => 0
  | .cons v fs => v.fixedBytes + fs.fixedBytes

def Variants.length : Variants → Nat
  | .nil => 0
  | .cons _ vs => vs.length + 1

/-- The bytes of the number of an enum's variant. -/
def Variants.variantLen (vs : Variants) : Nat :=
  let variantBits := if vs.length ≤ 1 then 0 else Nat.log2 (vs.length - 1) + 1
  (variantBits + 7) / 8

mutual

/-- `ByteLen::unknown_length`, where it returns -/
def Value.unknownLength : (v : Value) → v.Val → Nat
  | .string, s => (asBytes s).length
  | .cow v, x => v.unknownLength x.get
  | .option v, some x => v.fixedBytes + v.unknownLength x
  | .option _, none => 0
  | .array t _, xs => (xs.val.map t.byteLen).sum
  | .vec t, xs => (xs.map t.byteLen).sum
  | .delegated t, x => t.byteLen x
  | .emptyTuple, _ | .bool, _ | .number _, _ => 0

/-- `byte_len`, where it returns -/
def Ty.byteLen : (t : Ty) → t.Val → Nat
  | .lone v, x => v.fixedBytes + v.unknownLength x
  | .struct fs, x => fs.fixedBytes + fs.unknownLength x
  | .enum vs, x => vs.asLength x + vs.variantLen

def Fields.unknownLength : (fs : Fields) → fs.Val → Nat
  | .nil, _ => 0
  | .cons v fs, (x, xs) => v.unknownLength x + fs.unknownLength xs

def Variants.asLength : (vs : Variants) → vs.Val → Nat
  | .nil, x => nomatch x
  | .cons fs _, .inl x => fs.fixedBytes + fs.unknownLength x
  | .cons _ vs, .inr x => vs.asLength x

end

/-- An access to `len` bytes from `a` on is in bounds. -/
def InBounds (n a len : Nat) : Prop := len = 0 ∨ a + len ≤ n

/-- The fixed parts of the fields with `p` are in bounds. -/
def Fields.FixedInBounds (n : Nat) (p : Value → Prop) : Fields → Nat → Prop
  | .nil, _ => True
  | .cons v fs, offset => (p v → InBounds n offset v.fixedBytes) ∧
    fs.FixedInBounds n p (offset + v.fixedBytes)

theorem Fields.FixedInBounds.all {n : Nat} {p q : Value → Prop} (hpq : ∀ v, p v ∨ q v) :
    (fs : Fields) → {offset : Nat} → fs.FixedInBounds n p offset → fs.FixedInBounds n q offset →
    InBounds n offset fs.fixedBytes
  | .nil, _, _, _ => .inl rfl
  | .cons v fs, offset, hp, hq => by
    have hrest := all hpq fs hp.2 hq.2
    have hv : InBounds n offset v.fixedBytes := (hpq v).elim hp.1 hq.1
    unfold InBounds at hv hrest ⊢
    rw [fixedBytes]
    omega

/-! ## The types the macros accept -/

mutual

/-- The code for the field compiles. A `Cow` writes its number with `to_le_bytes`, and the macros
give up on one of a single fixed byte. -/
def Value.Accepted : Value → Prop
  | .emptyTuple | .bool | .number _ | .string => True
  | .cow v => v.fixedBytes ≠ 1 ∧ (v.isStatic = true → v.fixedBytes ≠ 0) ∧ v.Accepted
  | .option v => v.Accepted
  | .array t _ | .vec t | .delegated t => t.Accepted

def Ty.Accepted : Ty → Prop
  | .lone v => v.Accepted
  | .struct fs => fs.Accepted
  | .enum vs => 1 ≤ vs.length ∧ vs.length ≤ 256 ∧ vs.Accepted

def Fields.Accepted : Fields → Prop
  | .nil => True
  | .cons v fs => v.Accepted ∧ fs.Accepted

def Variants.Accepted : Variants → Prop
  | .nil => True
  | .cons fs vs => fs.Accepted ∧ vs.Accepted

end

theorem Variants.variantLen_of_le_one {vs : Variants} (h : vs.length ≤ 1) : vs.variantLen = 0 := by
  rw [variantLen, if_pos h]

/-- Up to 256 variants are numbered with one byte. -/
theorem Variants.variantLen_eq_one {vs : Variants} (h1 : 1 < vs.length) (h : vs.length ≤ 256) :
    vs.variantLen = 1 := by
  have hlog : Nat.log2 (vs.length - 1) < 8 := (Nat.log2_lt (by omega)).mpr (by omega)
  rw [variantLen, if_neg (by omega)]
  omega

end MiniUdp.Derive
