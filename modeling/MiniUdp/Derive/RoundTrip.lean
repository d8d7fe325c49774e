import MiniUdp.Derive.Decode

/-!
# The round trip

A type without a `Cow` is written and read back as it is (`Ty.roundTrips`).
-/

namespace MiniUdp.Derive

/-! ## Types without a `Cow` -/

mutual

def Value.CowFree : Value → Prop
  | .emptyTuple | .bool | .number _ | .string => True
  | .cow _ => False
  | .option v => v.CowFree
  | .array t _ | .vec t | .delegated t => t.CowFree

def Ty.CowFree : Ty → Prop
  | .lone v => v.CowFree
  | .struct fs => fs.CowFree
  | .enum vs => vs.CowFree

def Fields.CowFree : Fields → Prop
  | .nil => True
  | .cons v fs => v.CowFree ∧ fs.CowFree

def Variants.CowFree : Variants → Prop
  | .nil => True
  | .cons fs vs => fs.CowFree ∧ vs.CowFree

end

theorem Value.isCow_of_cowFree {v : Value} (h : v.CowFree) : v.isCow = false := by
  cases v with
  | cow v => exact h.elim
  | _ => rfl

mutual

/-- Without a `Cow` nothing is written twice. -/
theorem Value.single_of_cowFree : (v : Value) → v.CowFree → (x : v.Val) → v.Single x
  | .emptyTuple, _, _ | .bool, _, _ | .number _, _, _ | .string, _, _ | .option _, _, none =>
    trivial
  | .option v, h, some x =>
    ⟨fun hcow => absurd hcow (by simp [v.isCow_of_cowFree h]), v.single_of_cowFree h x⟩
  | .array t _, h, _ | .vec t, h, _ => fun x _ => t.single_of_cowFree h x
  | .delegated t, h, x => t.single_of_cowFree h x

theorem Ty.single_of_cowFree : (t : Ty) → t.CowFree → (x : t.Val) → t.Single x
  | .lone v, h, x => v.single_of_cowFree h x
  | .struct fs, h, x => fs.single_of_cowFree h x
  | .enum vs, h, x => vs.single_of_cowFree h x

theorem Fields.single_of_cowFree : (fs : Fields) → fs.CowFree → (x : fs.Val) → fs.Single x
  | .nil, _, _ => trivial
  | .cons v fs, h, (x, xs) => ⟨v.single_of_cowFree h.1 x, fs.single_of_cowFree h.2 xs⟩

theorem Variants.single_of_cowFree : (vs : Variants) → vs.CowFree → (x : vs.Val) → vs.Single x
  | .nil, _, x => nomatch x
  | .cons fs _, h, .inl x => fs.single_of_cowFree h.1 x
  | .cons _ vs, h, .inr x => vs.single_of_cowFree h.2 x

end

theorem map_eq_self {α : Type} {f : α → α} (h : ∀ x, f x = x) (xs : List α) : xs.map f = xs := by
  rw [show f = id from funext h, List.map_id]

mutual

/-- Without a `Cow` there is nothing to own. -/
theorem Value.owned_of_cowFree : (v : Value) → v.CowFree → (x : v.Val) → v.owned x = x
  | .emptyTuple, _, _ | .bool, _, _ | .number _, _, _ | .string, _, _ | .option _, _, none => rfl
  | .option v, h, some x => congrArg some (v.owned_of_cowFree h x)
  | .array t _, h, xs => Subtype.ext (map_eq_self (t.owned_of_cowFree h) xs.val)
  | .vec t, h, xs => map_eq_self (t.owned_of_cowFree h) xs
  | .delegated t, h, x => t.owned_of_cowFree h x

theorem Ty.owned_of_cowFree : (t : Ty) → t.CowFree → (x : t.Val) → t.owned x = x
  | .lone v, h, x => v.owned_of_cowFree h x
  | .struct fs, h, x => fs.owned_of_cowFree h x
  | .enum vs, h, x => vs.owned_of_cowFree h x

theorem Fields.owned_of_cowFree : (fs : Fields) → fs.CowFree → (x : fs.Val) → fs.owned x = x
  | .nil, _, _ => rfl
  | .cons v fs, h, (x, xs) =>
    congrArg₂ Prod.mk (v.owned_of_cowFree h.1 x) (fs.owned_of_cowFree h.2 xs)

theorem Variants.owned_of_cowFree : (vs : Variants) → vs.CowFree → (x : vs.Val) → vs.owned x = x
  | .nil, _, x => nomatch x
  | .cons fs _, h, .inl x => congrArg Sum.inl (fs.owned_of_cowFree h.1 x)
  | .cons _ vs, h, .inr x => congrArg Sum.inr (vs.owned_of_cowFree h.2 x)

end

/-! ## Writing and reading -/

/-- The value decides the bytes written, `byte_len` of them, and is read back from them, whatever
follows. -/
def Ty.RoundTrips (t : Ty) (x : t.Val) : Prop :=
  ∃ bs : Bytes, bs.length = t.byteLen x ∧ ∀ bytes : Bytes, t.byteLen x ≤ bytes.length →
    t.writeToBytes x bytes = (bs ++ bytes.drop (t.byteLen x), .ok ()) ∧
    ∀ rest, t.fromBytes (bs ++ rest) = .ok x

theorem Ty.roundTrips (t : Ty) (haccepted : t.Accepted) (hcow : t.CowFree) (x : t.Val)
    (hsmall : t.Small x) : t.RoundTrips x := by
  refine ⟨t.encode x, t.length_encode x, fun bytes hlen => ⟨?_, fun rest => ?_⟩⟩
  · have hwrites := t.writes haccepted x (t.single_of_cowFree hcow x)
    rw [hwrites bytes (by rw [t.length_encode]; omega), t.length_encode, List.take_zero,
      List.nil_append, Nat.zero_add]
  · have hread := t.reads haccepted x hsmall rest
    rw [t.owned_of_cowFree hcow] at hread
    exact value_ok hread

/-- `enum { Unit, Named { list: Vec<Option<String>>, flags: [bool; 2], n: f32 } }` -/
def mixedEnum : Ty :=
  .enum (.cons .nil (.cons (.cons (.vec (.lone (.option (.delegated (.lone .string)))))
    (.cons (.array (.lone .bool) 2) (.cons (.number .f32) .nil))) .nil))

def mixedEnumVal : mixedEnum.Val :=
  .inr (.inl ([none, some "cow"], ⟨[true, false], rfl⟩, 0xBF800000#32, ()))

theorem Ty.roundTrips_mixedEnum : mixedEnum.RoundTrips mixedEnumVal :=
  Ty.roundTrips mixedEnum
    ⟨by decide, by decide, trivial, ⟨trivial, trivial, trivial, trivial⟩, trivial⟩
    ⟨trivial, ⟨trivial, trivial, trivial, trivial⟩, trivial⟩ mixedEnumVal
    ⟨⟨by decide, List.forall_mem_cons.mpr ⟨trivial, List.forall_mem_singleton.mpr
      (by decide +kernel : (Utf8.asBytes "cow").length < 2 ^ 32)⟩⟩, fun _ _ => trivial, trivial,
      trivial⟩

end MiniUdp.Derive
