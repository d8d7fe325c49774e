import MiniUdp.Derive.Data
import Mathlib.Algebra.Order.BigOperators.Group.List
import Mathlib.Algebra.GroupWithZero.Nat

/-!
# Bounds on the length

The macros compute `MIN_BYTE_LEN` and `MAX_BYTE_LEN` from a `ByteLen` for each
field: the part they know and one that is only known once the constants of
other types are. Here these constants are numbers without a bound. Every value
is at least as long as the one (`minByteLen_le`) and, unless a string or vector
is longer than the macros assume, at most as long as the other
(`byteLen_le_max`).
-/

namespace MiniUdp.Derive

open Utf8

/-! ## `ByteLen` -/

/-- The length of a field. An unknown part for which there is no code is `none`; of the length of
the value it is only recorded whether there is code. `min_length` and `max_length`, the known
parts besides the fixed one, are never anything but 0. -/
structure ByteLen where
  fixedBytes : Nat
  unknownMin : Option Nat
  unknownMax : Option Nat
  unknownLength : Bool
  deriving DecidableEq, Repr

namespace ByteLen

def fullyStatic (length : Nat) : ByteLen := ⟨length, none, none, false⟩

def fullyUnknown (unknownMin unknownMax : Nat) : ByteLen := ⟨0, some unknownMin, some unknownMax, true⟩

def knownFixedUnknownLength (fixedBytes unknownMax : Nat) : ByteLen :=
  ⟨fixedBytes, none, some unknownMax, true⟩

def isStatic (l : ByteLen) : Bool := l.unknownMin.isNone && l.unknownMax.isNone && !l.unknownLength

def asConstMinLength (l : ByteLen) : Nat :=
  match l.unknownMin with
  | none => l.fixedBytes
  | some unknown => l.fixedBytes + unknown

def asConstMaxLength (l : ByteLen) : Nat :=
  match l.unknownMax with
  | none => l.fixedBytes
  | some unknown => l.fixedBytes + unknown

/-- The sum of two unknown parts, either of which may have no code. -/
def addUnknown : Option Nat → Option Nat → Option Nat
  | some a, some b => some (a + b)
  | some a, none => some a
  | none, b => b

def add (a b : ByteLen) : ByteLen where
  fixedBytes := a.fixedBytes + b.fixedBytes
  unknownMin := addUnknown a.unknownMin b.unknownMin
  unknownMax := addUnknown a.unknownMax b.unknownMax
  unknownLength := a.unknownLength || b.unknownLength

/-- `const_min_max_list`: the first option that every later one is on the right side of. -/
def constMinMaxList (operator : Nat → Nat → Bool) : List Nat → Nat
  | [] => 0
  | [first] => first
  | first :: options => if options.all (operator first) then first else constMinMaxList operator options

/-- `lowest_min_len`. `usizeMax` is what the macro takes when no variant has a known minimum. -/
def lowestMinLen (usizeMax : Nat) (variants : List ByteLen) (variantLen : Nat) : Nat :=
  let knownMin := (((variants.filter (·.unknownMin.isNone)).map fixedBytes).min?).getD usizeMax
  if variants.all (·.unknownMin.isNone) then knownMin + variantLen
  else
    let options := (variants.filter (·.unknownMin.isSome)).map asConstMinLength
    constMinMaxList (fun a b => decide (a ≤ b)) (knownMin :: options) + variantLen

def lowestMaxLen (variants : List ByteLen) (variantLen : Nat) : Nat :=
  let knownMax := (((variants.filter (·.unknownMax.isNone)).map fixedBytes).max?).getD 0
  if variants.all (·.unknownMax.isNone) then knownMax + variantLen
  else
    let options := (variants.filter (·.unknownMax.isSome)).map asConstMaxLength
    constMinMaxList (fun a b => decide (b ≤ a)) (knownMax :: options) + variantLen

end ByteLen

open ByteLen

/-! ## The constants of a type -/

section Consts

variable (usizeMax : Nat)

mutual

/-- The length of a field. A vector adds up to 1000 times what it takes an element for, which is
the element type's own maximum. -/
def Value.length : Value → ByteLen
  | .emptyTuple => fullyStatic 0
  | .bool => fullyStatic 1
  | .number n => fullyStatic n.bytes
  | .string => knownFixedUnknownLength 4 1020
  | .cow v => v.length
  | .option v => knownFixedUnknownLength 1 v.length.asConstMaxLength
  | .array t n => fullyUnknown (t.minByteLen * n) (t.maxByteLen * n)
  | .vec t => knownFixedUnknownLength 4 (1000 * t.maxByteLen)
  | .delegated t => fullyUnknown t.minByteLen t.maxByteLen

/-- `MIN_BYTE_LEN` -/
def Ty.minByteLen : Ty → Nat
  | .lone v => v.length.asConstMinLength
  | .struct fs => fs.length.asConstMinLength
  | .enum vs => lowestMinLen usizeMax vs.lengths vs.variantLen

/-- `MAX_BYTE_LEN` -/
def Ty.maxByteLen : Ty → Nat
  | .lone v => v.length.asConstMaxLength
  | .struct fs => fs.length.asConstMaxLength
  | .enum vs => lowestMaxLen vs.lengths vs.variantLen

def Fields.length : Fields → ByteLen
  | .nil => fullyStatic 0
  | .cons v fs => v.length.add fs.length

/-- The lengths of the variants. -/
def Variants.lengths : Variants → List ByteLen
  | .nil => []
  | .cons fs vs => fs.length :: vs.lengths

end

end Consts

mutual

/-- Strings have at most 1020 bytes, vectors at most 1000 elements. -/
def Value.Limited : (v : Value) → v.Val → Prop
  | .emptyTuple, _ | .bool, _ | .number _, _ | .option _, none => True
  | .string, s => (asBytes s).length ≤ 1020
  | .cow v, x => v.Limited x.get
  | .option v, some x => v.Limited x
  | .array t _, xs => ∀ x ∈ xs.val, t.Limited x
  | .vec t, xs => xs.length ≤ 1000 ∧ ∀ x ∈ xs, t.Limited x
  | .delegated t, x => t.Limited x

def Ty.Limited : (t : Ty) → t.Val → Prop
  | .lone v, x => v.Limited x
  | .struct fs, x => fs.Limited x
  | .enum vs, x => vs.Limited x

def Fields.Limited : (fs : Fields) → fs.Val → Prop
  | .nil, _ => True
  | .cons v fs, (x, xs) => v.Limited x ∧ fs.Limited xs

def Variants.Limited : (vs : Variants) → vs.Val → Prop
  | .nil, x => nomatch x
  | .cons fs _, .inl x => fs.Limited x
  | .cons _ vs, .inr x => vs.Limited x

end

/-! ## Sums and extrema -/

namespace ByteLen

/-- The unknown part of the minimum, 0 where there is no code for it. -/
def restMin (l : ByteLen) : Nat := l.unknownMin.getD 0

/-- The unknown part of the maximum, 0 where there is no code for it. -/
def restMax (l : ByteLen) : Nat := l.unknownMax.getD 0

theorem asConstMinLength_eq (l : ByteLen) : l.asConstMinLength = l.fixedBytes + l.restMin := by
  unfold asConstMinLength restMin
  cases l.unknownMin <;> rfl

theorem asConstMaxLength_eq (l : ByteLen) : l.asConstMaxLength = l.fixedBytes + l.restMax := by
  unfold asConstMaxLength restMax
  cases l.unknownMax <;> rfl

theorem getD_addUnknown (a b : Option Nat) : (addUnknown a b).getD 0 = a.getD 0 + b.getD 0 := by
  cases a <;> cases b <;> simp [addUnknown]

@[simp] theorem restMin_add (a b : ByteLen) : (a.add b).restMin = a.restMin + b.restMin :=
  getD_addUnknown a.unknownMin b.unknownMin

@[simp] theorem restMax_add (a b : ByteLen) : (a.add b).restMax = a.restMax + b.restMax :=
  getD_addUnknown a.unknownMax b.unknownMax

/-- A chain of comparisons with a total preorder ends at an option that is on the right side of
all. -/
theorem constMinMaxList_spec {operator : Nat → Nat → Bool}
    (htrans : ∀ a b c, operator a b = true → operator b c = true → operator a c = true)
    (htotal : ∀ a b, operator a b = true ∨ operator b a = true) (options : List Nat) :
    ∀ x ∈ options, operator (constMinMaxList operator options) x = true := by
  have hrefl : ∀ a, operator a a = true := fun a => (htotal a a).elim id id
  induction options with
  | nil => exact fun x hx => (nomatch hx)
  | cons first options ih =>
    cases options with
    | nil =>
      intro x hx
      rw [List.mem_singleton.mp hx]
      exact hrefl first
    | cons second options =>
      unfold constMinMaxList
      intro x hx
      split
      · rename_i hall
        rcases List.mem_cons.mp hx with rfl | hx
        · exact hrefl x
        · exact List.all_eq_true.mp hall x hx
      · rename_i hall
        rcases List.mem_cons.mp hx with rfl | hx
        · -- some later option is on the wrong side of the first, and the chosen one beats it
          have hall : ¬ ∀ y ∈ second :: options, operator x y = true :=
            fun h => hall (List.all_eq_true.mpr h)
          obtain ⟨y, hy⟩ := not_forall.mp hall
          obtain ⟨hmem, hxy⟩ := Classical.not_imp.mp hy
          exact htrans _ y x (ih y hmem) ((htotal x y).resolve_left hxy)
        · exact ih x hx

/-- Choosing from the known option and the options that are not known covers every variant. -/
theorem constMinMaxList_variants (operator : Nat → Nat → Bool) (unknown : ByteLen → Option Nat)
    (bound : ByteLen → Nat)
    (htrans : ∀ a b c, operator a b = true → operator b c = true → operator a c = true)
    (htotal : ∀ a b, operator a b = true ∨ operator b a = true) {known : Nat}
    {variants : List ByteLen}
    (hknown : ∀ l ∈ variants, unknown l = none → operator known (bound l) = true) :
    ∀ l ∈ variants, operator (constMinMaxList operator
      (known :: (variants.filter fun l => (unknown l).isSome).map bound)) (bound l) = true := by
  intro l hl
  have hspec := constMinMaxList_spec htrans htotal
    (known :: (variants.filter fun l => (unknown l).isSome).map bound)
  cases hu : unknown l with
  | none => exact htrans _ known _ (hspec known List.mem_cons_self) (hknown l hl hu)
  | some u =>
    refine hspec _ (List.mem_cons_of_mem known (List.mem_map.mpr ⟨l, ?_, rfl⟩))
    exact List.mem_filter.mpr ⟨hl, by rw [hu]; rfl⟩

/-- The fixed parts of the variants without an unknown part. -/
theorem mem_known {unknown : ByteLen → Option Nat} {variants : List ByteLen} {l : ByteLen}
    (h : l ∈ variants) (hu : unknown l = none) :
    l.fixedBytes ∈ (variants.filter fun l => (unknown l).isNone).map fixedBytes :=
  List.mem_map.mpr ⟨l, List.mem_filter.mpr ⟨h, by rw [hu]; rfl⟩, rfl⟩

/-- No variant is shorter than the minimum of an enum. -/
theorem lowestMinLen_le (usizeMax : Nat) {variants : List ByteLen} {l : ByteLen}
    (h : l ∈ variants) (variantLen : Nat) :
    lowestMinLen usizeMax variants variantLen ≤ l.asConstMinLength + variantLen := by
  have hknown : ∀ l ∈ variants, l.unknownMin = none →
      (((variants.filter (·.unknownMin.isNone)).map fixedBytes).min?).getD usizeMax ≤
        l.asConstMinLength := by
    intro l hl hu
    rw [asConstMinLength, hu]
    exact List.min?_getD_le_of_mem (mem_known hl hu)
  unfold lowestMinLen
  dsimp only
  split
  · rename_i hall
    exact Nat.add_le_add_right (hknown l h (by simpa using List.all_eq_true.mp hall l h)) variantLen
  · have hspec := constMinMaxList_variants (fun a b => decide (a ≤ b)) unknownMin asConstMinLength
      (fun a b c hab hbc => by simp only [decide_eq_true_eq] at *; omega)
      (fun a b => by simp only [decide_eq_true_eq]; omega)
      (fun l hl hu => decide_eq_true (hknown l hl hu)) l h
    exact Nat.add_le_add_right (of_decide_eq_true hspec) variantLen

/-- No variant is longer than the maximum of an enum. -/
theorem le_lowestMaxLen {variants : List ByteLen} {l : ByteLen} (h : l ∈ variants)
    (variantLen : Nat) :
    l.asConstMaxLength + variantLen ≤ lowestMaxLen variants variantLen := by
  have hknown : ∀ l ∈ variants, l.unknownMax = none → l.asConstMaxLength ≤
      (((variants.filter (·.unknownMax.isNone)).map fixedBytes).max?).getD 0 := by
    intro l hl hu
    rw [asConstMaxLength, hu]
    exact List.le_max?_getD_of_mem (mem_known hl hu)
  unfold lowestMaxLen
  dsimp only
  split
  · rename_i hall
    exact Nat.add_le_add_right (hknown l h (by simpa using List.all_eq_true.mp hall l h)) variantLen
  · have hspec := constMinMaxList_variants (fun a b => decide (b ≤ a)) unknownMax asConstMaxLength
      (fun a b c hab hbc => by simp only [decide_eq_true_eq] at *; omega)
      (fun a b => by simp only [decide_eq_true_eq]; omega)
      (fun l hl hu => decide_eq_true (hknown l hl hu)) l h
    exact Nat.add_le_add_right (of_decide_eq_true hspec) variantLen

end ByteLen

/-! ## Every value is within its bounds -/

theorem sum_map_le {α : Type} {f : α → Nat} {n : Nat} {l : List α} (h : ∀ x ∈ l, f x ≤ n) :
    (l.map f).sum ≤ n * l.length := by
  have := List.sum_le_card_nsmul (l.map f) n (by simpa using h)
  rwa [List.length_map, nsmul_eq_mul, Nat.cast_id, Nat.mul_comm] at this

theorem le_sum_map {α : Type} {f : α → Nat} {n : Nat} {l : List α} (h : ∀ x ∈ l, n ≤ f x) :
    n * l.length ≤ (l.map f).sum := by
  have := List.card_nsmul_le_sum (l.map f) n (by simpa using h)
  rwa [List.length_map, nsmul_eq_mul, Nat.cast_id, Nat.mul_comm] at this

section Within

variable (usizeMax : Nat)

theorem Value.fixedBytes_length : (v : Value) → (v.length usizeMax).fixedBytes = v.fixedBytes
  | .emptyTuple | .bool | .number _ | .string | .option _ | .array _ _ | .vec _ | .delegated _ => rfl
  | .cow v => v.fixedBytes_length

theorem Fields.fixedBytes_length : (fs : Fields) →
    (fs.length usizeMax).fixedBytes = fs.fixedBytes
  | .nil => rfl
  | .cons v fs => congrArg₂ (· + ·) (v.fixedBytes_length usizeMax) fs.fixedBytes_length

mutual

theorem Value.restMin_le : (v : Value) → (x : v.Val) →
    (v.length usizeMax).restMin ≤ v.unknownLength x
  | .emptyTuple, _ | .bool, _ | .number _, _ | .string, _ | .option _, _ | .vec _, _ =>
    Nat.zero_le _
  | .cow v, x => v.restMin_le x.get
  | .array t n, ⟨xs, hxs⟩ => by
    subst hxs
    exact le_sum_map fun x _ => t.minByteLen_le x
  | .delegated t, x => t.minByteLen_le x

/-- A value is never shorter than `MIN_BYTE_LEN`. -/
theorem Ty.minByteLen_le : (t : Ty) → (x : t.Val) → t.minByteLen usizeMax ≤ t.byteLen x
  | .lone v, x => by
    rw [Ty.minByteLen, asConstMinLength_eq, v.fixedBytes_length]
    exact Nat.add_le_add_left (v.restMin_le x) _
  | .struct fs, x => by
    rw [Ty.minByteLen, asConstMinLength_eq, fs.fixedBytes_length]
    exact Nat.add_le_add_left (fs.restMin_le x) _
  | .enum vs, x => by
    obtain ⟨l, hl, hle⟩ := vs.exists_min_le x
    exact Nat.le_trans (lowestMinLen_le usizeMax hl vs.variantLen) (Nat.add_le_add_right hle _)

theorem Fields.restMin_le : (fs : Fields) → (x : fs.Val) →
    (fs.length usizeMax).restMin ≤ fs.unknownLength x
  | .nil, _ => Nat.zero_le _
  | .cons v fs, (x, xs) => by
    rw [Fields.length, restMin_add]
    exact Nat.add_le_add (v.restMin_le x) (fs.restMin_le xs)

theorem Variants.exists_min_le : (vs : Variants) → (x : vs.Val) →
    ∃ l ∈ vs.lengths usizeMax, l.asConstMinLength ≤ vs.asLength x
  | .nil, x => nomatch x
  | .cons fs vs, .inl x => by
    refine ⟨fs.length usizeMax, List.mem_cons_self, ?_⟩
    rw [asConstMinLength_eq, fs.fixedBytes_length]
    exact Nat.add_le_add_left (fs.restMin_le x) _
  | .cons _ vs, .inr x => by
    obtain ⟨l, hl, hle⟩ := vs.exists_min_le x
    exact ⟨l, List.mem_cons_of_mem _ hl, hle⟩

end

mutual

theorem Value.le_restMax : (v : Value) → (x : v.Val) → v.Limited x →
    v.unknownLength x ≤ (v.length usizeMax).restMax
  | .emptyTuple, _, _ | .bool, _, _ | .number _, _, _ | .option _, none, _ => Nat.zero_le _
  | .string, _, hx => hx
  | .cow v, x, hx => v.le_restMax x.get hx
  | .option v, some x, hx => by
    show _ ≤ (v.length usizeMax).asConstMaxLength
    rw [asConstMaxLength_eq, v.fixedBytes_length]
    exact Nat.add_le_add_left (v.le_restMax x hx) _
  | .array t n, ⟨xs, hxs⟩, hx => by
    subst hxs
    exact sum_map_le fun x hmem => t.byteLen_le_max x (hx x hmem)
  | .vec t, xs, hx => by
    have hsum := sum_map_le fun x hmem => t.byteLen_le_max x (hx.2 x hmem)
    calc (xs.map t.byteLen).sum ≤ t.maxByteLen usizeMax * xs.length := hsum
      _ ≤ t.maxByteLen usizeMax * 1000 := Nat.mul_le_mul_left _ hx.1
      _ = 1000 * t.maxByteLen usizeMax := Nat.mul_comm _ _
  | .delegated t, x, hx => t.byteLen_le_max x hx

/-- A value without long strings and vectors is not longer than `MAX_BYTE_LEN`. -/
theorem Ty.byteLen_le_max : (t : Ty) → (x : t.Val) → t.Limited x →
    t.byteLen x ≤ t.maxByteLen usizeMax
  | .lone v, x, hx => by
    rw [Ty.maxByteLen, asConstMaxLength_eq, v.fixedBytes_length]
    exact Nat.add_le_add_left (v.le_restMax x hx) _
  | .struct fs, x, hx => by
    rw [Ty.maxByteLen, asConstMaxLength_eq, fs.fixedBytes_length]
    exact Nat.add_le_add_left (fs.le_restMax x hx) _
  | .enum vs, x, hx => by
    obtain ⟨l, hl, hle⟩ := vs.exists_le_max x hx
    exact Nat.le_trans (Nat.add_le_add_right hle _) (le_lowestMaxLen hl vs.variantLen)

theorem Fields.le_restMax : (fs : Fields) → (x : fs.Val) → fs.Limited x →
    fs.unknownLength x ≤ (fs.length usizeMax).restMax
  | .nil, _, _ => Nat.zero_le _
  | .cons v fs, (x, xs), hx => by
    rw [Fields.length, restMax_add]
    exact Nat.add_le_add (v.le_restMax x hx.1) (fs.le_restMax xs hx.2)

theorem Variants.exists_le_max : (vs : Variants) → (x : vs.Val) → vs.Limited x →
    ∃ l ∈ vs.lengths usizeMax, vs.asLength x ≤ l.asConstMaxLength
  | .nil, x, _ => nomatch x
  | .cons fs vs, .inl x, hx => by
    refine ⟨fs.length usizeMax, List.mem_cons_self, ?_⟩
    rw [asConstMaxLength_eq, fs.fixedBytes_length]
    exact Nat.add_le_add_left (fs.le_restMax x hx) _
  | .cons _ vs, .inr x, hx => by
    obtain ⟨l, hl, hle⟩ := vs.exists_le_max x hx
    exact ⟨l, List.mem_cons_of_mem _ hl, hle⟩

end

/-- The constants bound the length of every value: the minimum always, the maximum when no string
or vector is longer than the macros assume. -/
theorem Ty.byteLen_bounds (t : Ty) (x : t.Val) : t.minByteLen usizeMax ≤ t.byteLen x ∧
    (t.Limited x → t.byteLen x ≤ t.maxByteLen usizeMax) :=
  ⟨t.minByteLen_le usizeMax x, t.byteLen_le_max usizeMax x⟩

end Within

end MiniUdp.Derive
