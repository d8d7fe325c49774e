import MiniUdp.Derive.Bounds
import MiniUdp.Derive.RoundTrip
import MiniUdp.Lib.Divergence

/-!
# Values that are measured

The length of a `Cow` is computed by the code for what is inside, from the same
expression. For a type with an impl of its own that is a call of `byte_len`,
and on a `Cow` it is the impl for `Cow` that is called: this does the same, so
that it never returns. Only where no such `Cow` is met is a value `Measured`,
and `byteLen` what `byte_len` returns (`Ty.runByteLen_returnsIff`). Then it is
within the bounds the macros compute (`Ty.withinBounds_iff`).
-/

namespace MiniUdp.Derive

open Outcome Utf8

/-! ## `byte_len` -/

/-- The length is the `byte_len` of the field. -/
def Value.isDelegated : Value → Bool
  | .delegated _ => true
  | .cow v => v.isDelegated
  | .emptyTuple | .bool | .number _ | .string | .option _ | .array _ _ | .vec _ => false

def sumLengths {α : Type} (byteLen : α → Res Nat) : List α → Res Nat
  | [] => pure 0
  | item :: items => do
    let n ← byteLen item
    let m ← sumLengths byteLen items
    pure (n + m)

mutual

/-- `ByteLen::unknown_length`, run. -/
def Value.runUnknownLength : (v : Value) → v.Val → Res Nat
  | .string, s => pure (asBytes s).length
  -- the impl for `Cow` calls itself
  | .cow v, x => if v.isDelegated then .hang else v.runUnknownLength x.get
  | .option v, some x => do
    let n ← v.runUnknownLength x
    pure (v.fixedBytes + n)
  | .option _, none => pure 0
  | .array t _, xs => sumLengths t.runByteLen xs.val
  | .vec t, xs => sumLengths t.runByteLen xs
  | .delegated t, x => t.runByteLen x
  | .emptyTuple, _ | .bool, _ | .number _, _ => pure 0

/-- `byte_len`, run. -/
def Ty.runByteLen : (t : Ty) → t.Val → Res Nat
  | .lone v, x => do
    let n ← v.runUnknownLength x
    pure (v.fixedBytes + n)
  | .struct fs, x => do
    let n ← fs.runUnknownLength x
    pure (fs.fixedBytes + n)
  | .enum vs, x => do
    let n ← vs.runAsLength x
    pure (n + vs.variantLen)

def Fields.runUnknownLength : (fs : Fields) → fs.Val → Res Nat
  | .nil, _ => pure 0
  | .cons v fs, (x, xs) => do
    let n ← v.runUnknownLength x
    let m ← fs.runUnknownLength xs
    pure (n + m)

def Variants.runAsLength : (vs : Variants) → vs.Val → Res Nat
  | .nil, x => nomatch x
  | .cons fs _, .inl x => do
    let n ← fs.runUnknownLength x
    pure (fs.fixedBytes + n)
  | .cons _ vs, .inr x => vs.runAsLength x

end

/-! ## When it returns -/

mutual

/-- `byte_len` meets no `Cow` of a type with an impl of its own. -/
def Value.Measured : (v : Value) → v.Val → Prop
  | .emptyTuple, _ | .bool, _ | .number _, _ | .string, _ | .option _, none => True
  | .cow v, x => v.isDelegated = false ∧ v.Measured x.get
  | .option v, some x => v.Measured x
  | .array t _, xs => ∀ x ∈ xs.val, t.Measured x
  | .vec t, xs => ∀ x ∈ xs, t.Measured x
  | .delegated t, x => t.Measured x

def Ty.Measured : (t : Ty) → t.Val → Prop
  | .lone v, x => v.Measured x
  | .struct fs, x => fs.Measured x
  | .enum vs, x => vs.Measured x

def Fields.Measured : (fs : Fields) → fs.Val → Prop
  | .nil, _ => True
  | .cons v fs, (x, xs) => v.Measured x ∧ fs.Measured xs

def Variants.Measured : (vs : Variants) → vs.Val → Prop
  | .nil, x => nomatch x
  | .cons fs _, .inl x => fs.Measured x
  | .cons _ vs, .inr x => vs.Measured x

end

theorem sumLengths_returnsIff {α : Type} {byteLen : α → Res Nat} {p : α → Prop} {len : α → Nat}
    {xs : List α} (h : ∀ x ∈ xs, (byteLen x).ReturnsIff (p x) (len x)) :
    (sumLengths byteLen xs).ReturnsIff (∀ x ∈ xs, p x) (xs.map len).sum := by
  induction xs with
  | nil => exact (ReturnsIff.pure 0).of_iff (by simp)
  | cons x xs ih =>
    have hxs := ih fun y hy => h y (List.mem_cons_of_mem x hy)
    have hsum : (sumLengths byteLen (x :: xs)).ReturnsIff (p x ∧ ∀ y ∈ xs, p y)
        (len x + (xs.map len).sum) := (h x List.mem_cons_self).bind fun _ => hxs.map (len x + ·)
    exact hsum.of_iff List.forall_mem_cons

mutual

theorem Value.runUnknownLength_returnsIff : (v : Value) → (x : v.Val) →
    (v.runUnknownLength x).ReturnsIff (v.Measured x) (v.unknownLength x)
  | .emptyTuple, _ | .bool, _ | .number _, _ | .option _, none => .pure 0
  | .string, s => .pure (asBytes s).length
  | .cow v, x => by
    rw [Value.runUnknownLength]
    cases hd : v.isDelegated with
    | true => exact ⟨fun h => absurd (hd.symm.trans h.1) (by decide), fun _ => rfl⟩
    | false =>
      have hx := v.runUnknownLength_returnsIff x.get
      exact hx.of_iff ⟨fun h => h.2, fun h => ⟨hd, h⟩⟩
  | .option v, some x => (v.runUnknownLength_returnsIff x).map (v.fixedBytes + ·)
  | .array t _, _ | .vec t, _ => sumLengths_returnsIff fun x _ => t.runByteLen_returnsIff x
  | .delegated t, x => t.runByteLen_returnsIff x

/-- `byte_len` returns `byteLen` of just the values that are measured. -/
theorem Ty.runByteLen_returnsIff : (t : Ty) → (x : t.Val) →
    (t.runByteLen x).ReturnsIff (t.Measured x) (t.byteLen x)
  | .lone v, x => (v.runUnknownLength_returnsIff x).map (v.fixedBytes + ·)
  | .struct fs, x => (fs.runUnknownLength_returnsIff x).map (fs.fixedBytes + ·)
  | .enum vs, x => (vs.runAsLength_returnsIff x).map (· + vs.variantLen)

theorem Fields.runUnknownLength_returnsIff : (fs : Fields) → (x : fs.Val) →
    (fs.runUnknownLength x).ReturnsIff (fs.Measured x) (fs.unknownLength x)
  | .nil, _ => .pure 0
  | .cons v fs, (x, xs) => (v.runUnknownLength_returnsIff x).bind fun _ =>
    (fs.runUnknownLength_returnsIff xs).map (v.unknownLength x + ·)

theorem Variants.runAsLength_returnsIff : (vs : Variants) → (x : vs.Val) →
    (vs.runAsLength x).ReturnsIff (vs.Measured x) (vs.asLength x)
  | .nil, x => nomatch x
  | .cons fs _, .inl x => (fs.runUnknownLength_returnsIff x).map (fs.fixedBytes + ·)
  | .cons _ vs, .inr x => vs.runAsLength_returnsIff x

end

theorem Ty.runByteLen_of_measured {t : Ty} {x : t.Val} (h : t.Measured x) :
    t.runByteLen x = .ok (t.byteLen x) := (t.runByteLen_returnsIff x).ok h

/-! ## Owned values -/

mutual

theorem Value.measured_owned : (v : Value) → (x : v.Val) → (v.Measured (v.owned x) ↔ v.Measured x)
  | .emptyTuple, _ | .bool, _ | .number _, _ | .string, _ | .option _, none => Iff.rfl
  | .cow v, x => and_congr_right fun _ => v.measured_owned x.get
  | .option v, some x => v.measured_owned x
  | .array t _, _ | .vec t, _ =>
    List.forall_mem_map.trans (forall₂_congr fun x _ => t.measured_owned x)
  | .delegated t, x => t.measured_owned x

/-- A value read from an encoding is measured if what was encoded is. -/
theorem Ty.measured_owned : (t : Ty) → (x : t.Val) → (t.Measured (t.owned x) ↔ t.Measured x)
  | .lone v, x => v.measured_owned x
  | .struct fs, x => fs.measured_owned x
  | .enum vs, x => vs.measured_owned x

theorem Fields.measured_owned : (fs : Fields) → (x : fs.Val) →
    (fs.Measured (fs.owned x) ↔ fs.Measured x)
  | .nil, _ => Iff.rfl
  | .cons v fs, (x, xs) => and_congr (v.measured_owned x) (fs.measured_owned xs)

theorem Variants.measured_owned : (vs : Variants) → (x : vs.Val) →
    (vs.Measured (vs.owned x) ↔ vs.Measured x)
  | .nil, x => nomatch x
  | .cons fs _, .inl x => fs.measured_owned x
  | .cons _ vs, .inr x => vs.measured_owned x

end

/-! ## Within the bounds -/

/-- `byte_len` returns a length that is not below the minimum and, when no string or vector is
longer than the macros assume, not above the maximum. -/
def Ty.WithinBounds (usizeMax : Nat) (t : Ty) (x : t.Val) : Prop :=
  ∃ n, t.runByteLen x = .ok n ∧ t.minByteLen usizeMax ≤ n ∧
    (t.Limited x → n ≤ t.maxByteLen usizeMax)

/-- The values within the bounds are just those whose length is found. -/
theorem Ty.withinBounds_iff (usizeMax : Nat) (t : Ty) (x : t.Val) :
    t.WithinBounds usizeMax x ↔ t.Measured x := by
  constructor
  · rintro ⟨n, hn, -⟩
    exact ((t.runByteLen_returnsIff x).of_eq_ok hn).1
  · exact fun h => ⟨t.byteLen x, Ty.runByteLen_of_measured h, t.byteLen_bounds usizeMax x⟩

/-- `Cow<u16>`; `derive_for` takes what is inside for a type with an impl of its own. -/
def cowNumber : Ty := .lone (.cow (.delegated (.lone (.number .u16))))

/-- `struct { p: Cow<P> }` with `struct P(u16);` -/
def cowPoint : Ty :=
  .struct (.cons (.cow (.delegated (.struct (.cons (.number .u16) .nil)))) .nil)

/-- The length is never found. -/
theorem Ty.not_withinBounds :
    cowNumber.Accepted ∧ cowPoint.Accepted ∧
    cowNumber.runByteLen (.owned 1#16) = .hang ∧
    cowPoint.runByteLen (.owned (1#16, ()), ()) = .hang ∧
    ¬ cowNumber.WithinBounds (2 ^ 64 - 1) (.owned 1#16) ∧
    ¬ cowPoint.WithinBounds (2 ^ 64 - 1) (.owned (1#16, ()), ()) := by
  have hnumber : cowNumber.runByteLen (.owned 1#16) = .hang := rfl
  have hpoint : cowPoint.runByteLen (.owned (1#16, ()), ()) = .hang := rfl
  refine ⟨⟨by decide, by decide, trivial⟩, ⟨⟨by decide, by decide, trivial, trivial⟩, trivial⟩,
    hnumber, hpoint, ?_, ?_⟩
  · rintro ⟨n, hn, -⟩
    cases hnumber.symm.trans hn
  · rintro ⟨n, hn, -⟩
    cases hpoint.symm.trans hn

end MiniUdp.Derive
