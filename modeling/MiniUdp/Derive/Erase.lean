import MiniUdp.Derive.RoundTrip

/-!
# Without the `Cow`s

A type with the owned form in the place of every `Cow` (`erase`), and its
values (`toOwned`). A value and its owned form have the same encoding
(`Ty.encode_toOwned`).
-/

namespace MiniUdp.Derive

/-! ## Owned forms -/

mutual

def Value.erase : Value → Value
  | .emptyTuple => .emptyTuple
  | .bool => .bool
  | .number n => .number n
  | .string => .string
  | .cow v => v.erase
  | .option v => .option v.erase
  | .array t n => .array t.erase n
  | .vec t => .vec t.erase
  | .delegated t => .delegated t.erase

def Ty.erase : Ty → Ty
  | .lone v => .lone v.erase
  | .struct fs => .struct fs.erase
  | .enum vs => .enum vs.erase

def Fields.erase : Fields → Fields
  | .nil => .nil
  | .cons v fs => .cons v.erase fs.erase

def Variants.erase : Variants → Variants
  | .nil => .nil
  | .cons fs vs => .cons fs.erase vs.erase

end

mutual

def Value.toOwned : (v : Value) → v.Val → v.erase.Val
  | .emptyTuple, x | .bool, x | .number _, x | .string, x => x
  | .cow v, x => v.toOwned x.get
  | .option v, some x => some (v.toOwned x)
  | .option _, none => none
  | .array t _, xs => ⟨xs.val.map t.toOwned, (List.length_map _).trans xs.property⟩
  | .vec t, xs => xs.map t.toOwned
  | .delegated t, x => t.toOwned x

def Ty.toOwned : (t : Ty) → t.Val → t.erase.Val
  | .lone v, x => v.toOwned x
  | .struct fs, x => fs.toOwned x
  | .enum vs, x => vs.toOwned x

def Fields.toOwned : (fs : Fields) → fs.Val → fs.erase.Val
  | .nil, _ => ()
  | .cons v fs, (x, xs) => (v.toOwned x, fs.toOwned xs)

def Variants.toOwned : (vs : Variants) → vs.Val → vs.erase.Val
  | .nil, x => nomatch x
  | .cons fs _, .inl x => .inl (fs.toOwned x)
  | .cons _ vs, .inr x => .inr (vs.toOwned x)

end

/-! ## What stays -/

theorem Value.fixedBytes_erase : (v : Value) → v.erase.fixedBytes = v.fixedBytes
  | .emptyTuple | .bool | .number _ | .string | .option _ | .array _ _ | .vec _
  | .delegated _ => rfl
  | .cow v => v.fixedBytes_erase

theorem Variants.length_erase : (vs : Variants) → vs.erase.length = vs.length
  | .nil => rfl
  | .cons _ vs => congrArg (· + 1) vs.length_erase

theorem Variants.variantLen_erase (vs : Variants) : vs.erase.variantLen = vs.variantLen := by
  rw [variantLen, length_erase, variantLen]

mutual

theorem Value.cowFree_erase : (v : Value) → v.erase.CowFree
  | .emptyTuple | .bool | .number _ | .string => trivial
  | .cow v | .option v => v.cowFree_erase
  | .array t _ | .vec t | .delegated t => t.cowFree_erase

theorem Ty.cowFree_erase : (t : Ty) → t.erase.CowFree
  | .lone v => v.cowFree_erase
  | .struct fs => fs.cowFree_erase
  | .enum vs => vs.cowFree_erase

theorem Fields.cowFree_erase : (fs : Fields) → fs.erase.CowFree
  | .nil => trivial
  | .cons v fs => ⟨v.cowFree_erase, fs.cowFree_erase⟩

theorem Variants.cowFree_erase : (vs : Variants) → vs.erase.CowFree
  | .nil => trivial
  | .cons fs vs => ⟨fs.cowFree_erase, vs.cowFree_erase⟩

end

mutual

theorem Value.accepted_erase : (v : Value) → v.Accepted → v.erase.Accepted
  | .emptyTuple, _ | .bool, _ | .number _, _ | .string, _ => trivial
  | .cow v, h => v.accepted_erase h.2.2
  | .option v, h => v.accepted_erase h
  | .array t _, h | .vec t, h | .delegated t, h => t.accepted_erase h

theorem Ty.accepted_erase : (t : Ty) → t.Accepted → t.erase.Accepted
  | .lone v, h => v.accepted_erase h
  | .struct fs, h => fs.accepted_erase h
  | .enum vs, ⟨h1, h256, h⟩ =>
    ⟨vs.length_erase.symm ▸ h1, vs.length_erase.symm ▸ h256, vs.accepted_erase h⟩

theorem Fields.accepted_erase : (fs : Fields) → fs.Accepted → fs.erase.Accepted
  | .nil, _ => trivial
  | .cons v fs, h => ⟨v.accepted_erase h.1, fs.accepted_erase h.2⟩

theorem Variants.accepted_erase : (vs : Variants) → vs.Accepted → vs.erase.Accepted
  | .nil, _ => trivial
  | .cons fs vs, h => ⟨fs.accepted_erase h.1, vs.accepted_erase h.2⟩

end

mutual

theorem Value.small_toOwned : (v : Value) → (x : v.Val) → v.Small x → v.erase.Small (v.toOwned x)
  | .emptyTuple, _, _ | .bool, _, _ | .number _, _, _ | .option _, none, _ => trivial
  | .string, _, h => h
  | .cow v, x, h => v.small_toOwned x.get h
  | .option v, some x, h => v.small_toOwned x h
  | .array t _, _, h => List.forall_mem_map.mpr fun x hx => t.small_toOwned x (h x hx)
  | .vec t, _, h => ⟨(List.length_map t.toOwned).symm ▸ h.1,
    List.forall_mem_map.mpr fun x hx => t.small_toOwned x (h.2 x hx)⟩
  | .delegated t, x, h => t.small_toOwned x h

theorem Ty.small_toOwned : (t : Ty) → (x : t.Val) → t.Small x → t.erase.Small (t.toOwned x)
  | .lone v, x, h => v.small_toOwned x h
  | .struct fs, x, h => fs.small_toOwned x h
  | .enum vs, x, h => vs.small_toOwned x h

theorem Fields.small_toOwned : (fs : Fields) → (x : fs.Val) → fs.Small x →
    fs.erase.Small (fs.toOwned x)
  | .nil, _, _ => trivial
  | .cons v fs, (x, xs), h => ⟨v.small_toOwned x h.1, fs.small_toOwned xs h.2⟩

theorem Variants.small_toOwned : (vs : Variants) → (x : vs.Val) → vs.Small x →
    vs.erase.Small (vs.toOwned x)
  | .nil, x, _ => nomatch x
  | .cons fs _, .inl x, h => fs.small_toOwned x h
  | .cons _ vs, .inr x, h => vs.small_toOwned x h

end

/-! ## The same encoding -/

mutual

theorem Value.encodeFixed_toOwned : (v : Value) → (x : v.Val) →
    v.erase.encodeFixed (v.toOwned x) = v.encodeFixed x
  | .emptyTuple, _ | .bool, _ | .number _, _ | .string, _ | .option _, some _ | .option _, none
  | .array _ _, _ | .delegated _, _ => rfl
  | .cow v, x => v.encodeFixed_toOwned x.get
  | .vec t, _ => congrArg lenBytes (List.length_map t.toOwned)

theorem Fields.encodeFixed_toOwned : (fs : Fields) → (x : fs.Val) →
    fs.erase.encodeFixed (fs.toOwned x) = fs.encodeFixed x
  | .nil, _ => rfl
  | .cons v fs, (x, xs) => congrArg₂ (· ++ ·) (v.encodeFixed_toOwned x) (fs.encodeFixed_toOwned xs)

theorem Variants.variantId_toOwned : (vs : Variants) → (x : vs.Val) →
    vs.erase.variantId (vs.toOwned x) = vs.variantId x
  | .nil, x => nomatch x
  | .cons _ _, .inl _ => rfl
  | .cons _ vs, .inr x => congrArg (· + 1) (vs.variantId_toOwned x)

end

theorem flatMap_map_of {α β γ : Type} {f : α → β} {g : β → List γ} {h : α → List γ}
    (hfg : ∀ x, g (f x) = h x) (xs : List α) : (xs.map f).flatMap g = xs.flatMap h := by
  rw [List.flatMap_map]
  exact List.flatMap_congr fun x _ => hfg x

mutual

theorem Value.encodeVariable_toOwned : (v : Value) → (x : v.Val) →
    v.erase.encodeVariable (v.toOwned x) = v.encodeVariable x
  | .emptyTuple, _ | .bool, _ | .number _, _ | .string, _ | .option _, none => rfl
  | .cow v, x => v.encodeVariable_toOwned x.get
  | .option v, some x => congrArg₂ (· ++ ·) (v.encodeFixed_toOwned x) (v.encodeVariable_toOwned x)
  | .array t _, xs => flatMap_map_of t.encode_toOwned xs.val
  | .vec t, xs => flatMap_map_of t.encode_toOwned xs
  | .delegated t, x => t.encode_toOwned x

/-- A value and its owned form have the same encoding. -/
theorem Ty.encode_toOwned : (t : Ty) → (x : t.Val) → t.erase.encode (t.toOwned x) = t.encode x
  | .lone v, x => congrArg₂ (· ++ ·) (v.encodeFixed_toOwned x) (v.encodeVariable_toOwned x)
  | .struct fs, x => congrArg₂ (· ++ ·) (fs.encodeFixed_toOwned x) (fs.encodeVariable_toOwned x)
  | .enum vs, x => congrArg₂ (· ++ ·)
    (congrArg₂ toLe vs.variantLen_erase (vs.variantId_toOwned x)) (vs.encode_toOwned x)

theorem Fields.encodeVariable_toOwned : (fs : Fields) → (x : fs.Val) →
    fs.erase.encodeVariable (fs.toOwned x) = fs.encodeVariable x
  | .nil, _ => rfl
  | .cons v fs, (x, xs) =>
    congrArg₂ (· ++ ·) (v.encodeVariable_toOwned x) (fs.encodeVariable_toOwned xs)

theorem Variants.encode_toOwned : (vs : Variants) → (x : vs.Val) →
    vs.erase.encode (vs.toOwned x) = vs.encode x
  | .nil, x => nomatch x
  | .cons fs _, .inl x =>
    congrArg₂ (· ++ ·) (fs.encodeFixed_toOwned x) (fs.encodeVariable_toOwned x)
  | .cons _ vs, .inr x => vs.encode_toOwned x

end

theorem Ty.byteLen_toOwned (t : Ty) (x : t.Val) : t.erase.byteLen (t.toOwned x) = t.byteLen x := by
  rw [← t.erase.length_encode, t.encode_toOwned, t.length_encode]

mutual

theorem Value.toOwned_owned : (v : Value) → (x : v.Val) → v.toOwned (v.owned x) = v.toOwned x
  | .emptyTuple, _ | .bool, _ | .number _, _ | .string, _ | .option _, none => rfl
  | .cow v, x => v.toOwned_owned x.get
  | .option v, some x => congrArg some (v.toOwned_owned x)
  | .array t _, _ => Subtype.ext
    ((List.map_map ..).trans (List.map_congr_left fun x _ => t.toOwned_owned x))
  | .vec t, _ => (List.map_map ..).trans (List.map_congr_left fun x _ => t.toOwned_owned x)
  | .delegated t, x => t.toOwned_owned x

theorem Ty.toOwned_owned : (t : Ty) → (x : t.Val) → t.toOwned (t.owned x) = t.toOwned x
  | .lone v, x => v.toOwned_owned x
  | .struct fs, x => fs.toOwned_owned x
  | .enum vs, x => vs.toOwned_owned x

theorem Fields.toOwned_owned : (fs : Fields) → (x : fs.Val) →
    fs.toOwned (fs.owned x) = fs.toOwned x
  | .nil, _ => rfl
  | .cons v fs, (x, xs) => congrArg₂ Prod.mk (v.toOwned_owned x) (fs.toOwned_owned xs)

theorem Variants.toOwned_owned : (vs : Variants) → (x : vs.Val) →
    vs.toOwned (vs.owned x) = vs.toOwned x
  | .nil, x => nomatch x
  | .cons fs _, .inl x => congrArg Sum.inl (fs.toOwned_owned x)
  | .cons _ vs, .inr x => congrArg Sum.inr (vs.toOwned_owned x)

end

end MiniUdp.Derive
