import MiniUdp.Derive.Bounds

/-!
# Types of one size

`StaticByteRepr` gives a type one length for all its values. The macros derive
it when no field has an unknown part, for an enum in no variant. That is enough
for a struct; the variants of an enum may still differ in their fixed parts,
and exactly then the length it gives is not that of every value
(`staticByteRepr_iff`).
-/

namespace MiniUdp.Derive

open ByteLen

section

variable (usizeMax : Nat)

/-- An impl of `StaticByteRepr` is emitted. There is no impl at all for an enum without variants. -/
def Ty.EmitsStatic : Ty → Prop
  | .lone v => (v.length usizeMax).isStatic = true
  | .struct fs => (fs.length usizeMax).isStatic = true
  | .enum vs => 1 ≤ vs.length ∧ (vs.lengths usizeMax).all ByteLen.isStatic = true

/-- `BYTE_LEN` -/
def Ty.staticByteLen (t : Ty) : Nat := t.maxByteLen usizeMax

/-- `BYTE_LEN` is the length of every value, and both bounds on it. -/
def Ty.StaticSound (t : Ty) : Prop :=
  (∀ x : t.Val, t.byteLen x = t.staticByteLen usizeMax) ∧
  t.staticByteLen usizeMax = t.minByteLen usizeMax ∧
  t.staticByteLen usizeMax = t.maxByteLen usizeMax

end

/-- The fixed parts of all variants have this many bytes. -/
def Variants.AllFixed (n : Nat) : Variants → Prop
  | .nil => True
  | .cons fs vs => fs.fixedBytes = n ∧ vs.AllFixed n

/-- An enum's variants have fixed parts of one length. -/
def Ty.OneSize : Ty → Prop
  | .lone _ | .struct _ => True
  | .enum vs => ∃ n, vs.AllFixed n

/-! ## Fields without unknown parts -/

section

variable {usizeMax : Nat}

theorem ByteLen.isStatic_iff {l : ByteLen} : l.isStatic = true ↔
    l.unknownMin = none ∧ l.unknownMax = none ∧ l.unknownLength = false := by
  simp [ByteLen.isStatic, and_assoc]

theorem ByteLen.addUnknown_eq_none {a b : Option Nat} :
    addUnknown a b = none ↔ a = none ∧ b = none := by
  cases a <;> cases b <;> simp [addUnknown]

theorem ByteLen.isStatic_add {a b : ByteLen} (h : (a.add b).isStatic = true) :
    a.isStatic = true ∧ b.isStatic = true := by
  simp only [isStatic_iff, add, addUnknown_eq_none, Bool.or_eq_false_iff] at *
  obtain ⟨⟨h1, h2⟩, ⟨h3, h4⟩, h5, h6⟩ := h
  exact ⟨⟨h1, h3, h5⟩, h2, h4, h6⟩

theorem Value.unknownLength_of_static : (v : Value) → (v.length usizeMax).isStatic = true →
    (x : v.Val) → v.unknownLength x = 0
  | .emptyTuple, _, _ | .bool, _, _ | .number _, _, _ => rfl
  | .cow v, h, x => v.unknownLength_of_static h x.get

theorem Value.exists_of_static : (v : Value) → (v.length usizeMax).isStatic = true → Nonempty v.Val
  | .emptyTuple, _ => ⟨()⟩
  | .bool, _ => ⟨false⟩
  | .number n, _ => ⟨(0 : BitVec (8 * n.bytes))⟩
  | .cow v, h => (v.exists_of_static h).map Cow.owned

theorem Fields.unknownLength_of_static : (fs : Fields) → (fs.length usizeMax).isStatic = true →
    (x : fs.Val) → fs.unknownLength x = 0
  | .nil, _, _ => rfl
  | .cons v fs, h, (x, xs) => by
    obtain ⟨hv, hfs⟩ := isStatic_add h
    rw [unknownLength, v.unknownLength_of_static hv, fs.unknownLength_of_static hfs]

theorem Fields.exists_of_static : (fs : Fields) → (fs.length usizeMax).isStatic = true →
    Nonempty fs.Val
  | .nil, _ => ⟨()⟩
  | .cons v fs, h =>
    have ⟨x⟩ := v.exists_of_static (isStatic_add h).1
    have ⟨xs⟩ := fs.exists_of_static (isStatic_add h).2
    ⟨(x, xs)⟩

theorem ByteLen.asConst_of_static {l : ByteLen} (h : l.isStatic = true) :
    l.asConstMinLength = l.fixedBytes ∧ l.asConstMaxLength = l.fixedBytes := by
  obtain ⟨hmin, hmax, -⟩ := isStatic_iff.mp h
  rw [asConstMinLength, asConstMaxLength, hmin, hmax]
  exact ⟨rfl, rfl⟩

/-! ## Variants without unknown parts -/

/-- The variants of an enum for which the impl is emitted have one length just when all its
values do. -/
theorem Variants.allFixed_iff {n : Nat} : (vs : Variants) →
    (vs.lengths usizeMax).all ByteLen.isStatic = true →
    (vs.AllFixed n ↔ ∀ x : vs.Val, vs.asLength x = n)
  | .nil, _ => ⟨fun _ x => Empty.elim x, fun _ => trivial⟩
  | .cons fs vs, h => by
    obtain ⟨hfs, hvs⟩ := Bool.and_eq_true_iff.mp h
    have hlen : ∀ x : fs.Val, (Variants.cons fs vs).asLength (.inl x) = fs.fixedBytes := fun x => by
      rw [asLength, fs.unknownLength_of_static hfs, Nat.add_zero]
    constructor
    · intro hn x
      cases x with
      | inl x => exact (hlen x).trans hn.1
      | inr x => exact (vs.allFixed_iff hvs).mp hn.2 x
    · intro hall
      obtain ⟨x⟩ := fs.exists_of_static hfs
      refine ⟨(hlen x).symm.trans (hall (.inl x)), (vs.allFixed_iff hvs).mpr fun x => ?_⟩
      exact hall (.inr x)

theorem Variants.map_fixedBytes {n : Nat} : (vs : Variants) → vs.AllFixed n →
    (vs.lengths usizeMax).map fixedBytes = List.replicate vs.length n
  | .nil, _ => rfl
  | .cons fs vs, h => by
    show _ :: _ = _ :: List.replicate vs.length n
    rw [fs.fixedBytes_length, h.1, vs.map_fixedBytes h.2]

/-- Both constants of an enum whose variants have one length. -/
theorem Variants.consts_of_allFixed {n : Nat} {vs : Variants} (h1 : 1 ≤ vs.length)
    (h : (vs.lengths usizeMax).all ByteLen.isStatic = true) (hn : vs.AllFixed n) :
    lowestMinLen usizeMax (vs.lengths usizeMax) vs.variantLen = n + vs.variantLen ∧
    lowestMaxLen (vs.lengths usizeMax) vs.variantLen = n + vs.variantLen := by
  have hmin : ∀ l ∈ vs.lengths usizeMax, l.unknownMin.isNone = true := fun l hl => by
    rw [(isStatic_iff.mp (List.all_eq_true.mp h l hl)).1]
    rfl
  have hmax : ∀ l ∈ vs.lengths usizeMax, l.unknownMax.isNone = true := fun l hl => by
    rw [(isStatic_iff.mp (List.all_eq_true.mp h l hl)).2.1]
    rfl
  have h0 : vs.length ≠ 0 := by omega
  constructor
  · unfold lowestMinLen
    dsimp only
    rw [if_pos (List.all_eq_true.mpr hmin), List.filter_eq_self.mpr hmin, vs.map_fixedBytes hn,
      List.min?_replicate, if_neg h0, Option.getD_some]
  · unfold lowestMaxLen
    dsimp only
    rw [if_pos (List.all_eq_true.mpr hmax), List.filter_eq_self.mpr hmax, vs.map_fixedBytes hn,
      List.max?_replicate, if_neg h0, Option.getD_some]

end

/-- Where `StaticByteRepr` is emitted, it is sound just when the type is not an enum whose variants
differ in length. -/
theorem staticByteRepr_iff (usizeMax : Nat) (t : Ty) (h : t.EmitsStatic usizeMax) :
    t.StaticSound usizeMax ↔ t.OneSize := by
  cases t with
  | lone v =>
    obtain ⟨hmin, hmax⟩ := asConst_of_static h
    refine iff_of_true ⟨fun x => ?_, hmax.trans hmin.symm, rfl⟩ trivial
    rw [Ty.byteLen, v.unknownLength_of_static h, Ty.staticByteLen, Ty.maxByteLen, hmax,
      v.fixedBytes_length, Nat.add_zero]
  | struct fs =>
    obtain ⟨hmin, hmax⟩ := asConst_of_static h
    refine iff_of_true ⟨fun x => ?_, hmax.trans hmin.symm, rfl⟩ trivial
    rw [Ty.byteLen, fs.unknownLength_of_static h, Ty.staticByteLen, Ty.maxByteLen, hmax,
      fs.fixedBytes_length, Nat.add_zero]
  | enum vs =>
    obtain ⟨h1, hall⟩ := h
    constructor
    · intro hs
      refine ⟨Ty.maxByteLen usizeMax (.enum vs) - vs.variantLen, ?_⟩
      refine (vs.allFixed_iff hall).mpr fun x => ?_
      have hx : vs.asLength x + vs.variantLen = Ty.maxByteLen usizeMax (.enum vs) := hs.1 x
      omega
    · rintro ⟨n, hn⟩
      obtain ⟨hmin, hmax⟩ := Variants.consts_of_allFixed h1 hall hn
      refine ⟨fun x => ?_, hmax.trans hmin.symm, rfl⟩
      show vs.asLength x + vs.variantLen = lowestMaxLen (vs.lengths usizeMax) vs.variantLen
      rw [(vs.allFixed_iff hall).mp hn x, hmax]

/-- `enum { A(u16), B(bool, u8) }` -/
theorem staticByteRepr_iff_sameSize :
    Ty.StaticSound (2 ^ 64 - 1) (.enum (.cons (.cons (.number .u16) .nil)
      (.cons (.cons .bool (.cons (.number .u8) .nil)) .nil))) ↔
    Ty.OneSize (.enum (.cons (.cons (.number .u16) .nil)
      (.cons (.cons .bool (.cons (.number .u8) .nil)) .nil))) :=
  staticByteRepr_iff _ _ ⟨by decide, by decide⟩

/-- `enum { A(u8), B(u32) }` has `BYTE_LEN` 5, but its value `A(0)` takes 2 bytes. -/
theorem staticByteRepr_twoSizes :
    let t : Ty := .enum (.cons (.cons (.number .u8) .nil) (.cons (.cons (.number .u32) .nil) .nil))
    t.EmitsStatic (2 ^ 64 - 1) ∧ t.staticByteLen (2 ^ 64 - 1) = 5 ∧
    t.byteLen (.inl ((0 : BitVec 8), ())) = 2 ∧ ¬ t.StaticSound (2 ^ 64 - 1) :=
  ⟨⟨by decide, by decide⟩, by decide, by decide, fun h =>
    absurd (h.1 (.inl ((0 : BitVec 8), ()))) (by decide)⟩

end MiniUdp.Derive
