import MiniUdp.Derive.Codec
import MiniUdp.Derive.Paint

/-!
# The encoding of a value

The bytes a derived writer is meant to write (`encode`). It writes them
(`Ty.writes`) unless an `Option` holds a `Cow` of a number, whose bytes are
then written twice (`Single`).
-/

namespace MiniUdp.Derive

open Utf8

/-! ## Encoding -/

def Value.encodeFixed : (v : Value) → v.Val → Bytes
  | .emptyTuple, _ => []
  | .bool, b => [flag b]
  | .number n, x => n.toLeBytes x
  | .string, s => lenBytes (asBytes s).length
  | .cow v, x => v.encodeFixed x.get
  | .option _, x => [flag x.isSome]
  | .array _ _, _ => []
  | .vec _, xs => lenBytes xs.length
  | .delegated _, _ => []

def Fields.encodeFixed : (fs : Fields) → fs.Val → Bytes
  | .nil, _ => []
  | .cons v fs, (x, xs) => v.encodeFixed x ++ fs.encodeFixed xs

/-- The number of the variant. -/
def Variants.variantId : (vs : Variants) → vs.Val → Nat
  | .nil, x => nomatch x
  | .cons _ _, .inl _ => 0
  | .cons _ vs, .inr x => vs.variantId x + 1

mutual

def Value.encodeVariable : (v : Value) → v.Val → Bytes
  | .emptyTuple, _ | .bool, _ | .number _, _ => []
  | .string, s => asBytes s
  | .cow v, x => v.encodeVariable x.get
  | .option v, some x => v.encodeFixed x ++ v.encodeVariable x
  | .option _, none => []
  | .array t _, xs => xs.val.flatMap t.encode
  | .vec t, xs => xs.flatMap t.encode
  | .delegated t, x => t.encode x

def Ty.encode : (t : Ty) → t.Val → Bytes
  | .lone v, x => v.encodeFixed x ++ v.encodeVariable x
  | .struct fs, x => fs.encodeFixed x ++ fs.encodeVariable x
  | .enum vs, x => toLe vs.variantLen (vs.variantId x) ++ vs.encode x

def Fields.encodeVariable : (fs : Fields) → fs.Val → Bytes
  | .nil, _ => []
  | .cons v fs, (x, xs) => v.encodeVariable x ++ fs.encodeVariable xs

def Variants.encode : (vs : Variants) → vs.Val → Bytes
  | .nil, x => nomatch x
  | .cons fs _, .inl x => fs.encodeFixed x ++ fs.encodeVariable x
  | .cons _ vs, .inr x => vs.encode x

end

/-! ## Its length -/

theorem length_lenBytes (len : Nat) : (lenBytes len).length = 4 := length_toLe 4 _

theorem Value.length_encodeFixed : (v : Value) → (x : v.Val) →
    (v.encodeFixed x).length = v.fixedBytes
  | .emptyTuple, _ | .bool, _ | .option _, _ | .array _ _, _ | .delegated _, _ => rfl
  | .number n, _ => length_toLe n.bytes _
  | .string, _ | .vec _, _ => length_lenBytes _
  | .cow v, x => v.length_encodeFixed x.get

theorem Fields.length_encodeFixed (fs : Fields) (x : fs.Val) :
    (fs.encodeFixed x).length = fs.fixedBytes := by
  cases fs with
  | nil => rfl
  | cons v fs =>
    rw [encodeFixed, List.length_append, v.length_encodeFixed, fs.length_encodeFixed, fixedBytes]

theorem length_flatMap_of {α : Type} {encode : α → Bytes} {byteLen : α → Nat} {xs : List α}
    (h : ∀ x ∈ xs, (encode x).length = byteLen x) :
    (xs.flatMap encode).length = (xs.map byteLen).sum := by
  rw [List.length_flatMap, List.map_congr_left h]

mutual

theorem Value.length_encodeVariable : (v : Value) → (x : v.Val) →
    (v.encodeVariable x).length = v.unknownLength x
  | .emptyTuple, _ | .bool, _ | .number _, _ | .string, _ | .option _, none => rfl
  | .cow v, x => v.length_encodeVariable x.get
  | .option v, some x => by
    rw [Value.encodeVariable, List.length_append, v.length_encodeFixed, v.length_encodeVariable,
      Value.unknownLength]
  | .array t _, _ | .vec t, _ => length_flatMap_of fun x _ => t.length_encode x
  | .delegated t, x => t.length_encode x

/-- The encoding has `byte_len` bytes. -/
theorem Ty.length_encode : (t : Ty) → (x : t.Val) → (t.encode x).length = t.byteLen x
  | .lone v, x => by
    rw [Ty.encode, List.length_append, v.length_encodeFixed, v.length_encodeVariable, Ty.byteLen]
  | .struct fs, x => by
    rw [Ty.encode, List.length_append, fs.length_encodeFixed, fs.length_encodeVariable,
      Ty.byteLen]
  | .enum vs, x => by
    rw [Ty.encode, List.length_append, length_toLe, vs.length_encode, Ty.byteLen, Nat.add_comm]

theorem Fields.length_encodeVariable : (fs : Fields) → (x : fs.Val) →
    (fs.encodeVariable x).length = fs.unknownLength x
  | .nil, _ => rfl
  | .cons v fs, (x, xs) => by
    rw [Fields.encodeVariable, List.length_append, v.length_encodeVariable,
      fs.length_encodeVariable, Fields.unknownLength]

theorem Variants.length_encode : (vs : Variants) → (x : vs.Val) →
    (vs.encode x).length = vs.asLength x
  | .nil, x => nomatch x
  | .cons fs _, .inl x => by
    rw [Variants.encode, List.length_append, fs.length_encodeFixed, fs.length_encodeVariable,
      Variants.asLength]
  | .cons _ vs, .inr x => vs.length_encode x

end

/-! ## Values whose bytes are written once -/

mutual

/-- No `Option` holds a `Cow` of a number. -/
def Value.Single : (v : Value) → v.Val → Prop
  | .emptyTuple, _ | .bool, _ | .number _, _ | .string, _ | .option _, none => True
  | .cow v, x => v.Single x.get
  | .option v, some x => (v.isCow = true → v.isStatic = false) ∧ v.Single x
  | .array t _, xs => ∀ x ∈ xs.val, t.Single x
  | .vec t, xs => ∀ x ∈ xs, t.Single x
  | .delegated t, x => t.Single x

def Ty.Single : (t : Ty) → t.Val → Prop
  | .lone v, x => v.Single x
  | .struct fs, x => fs.Single x
  | .enum vs, x => vs.Single x

def Fields.Single : (fs : Fields) → fs.Val → Prop
  | .nil, _ => True
  | .cons v fs, (x, xs) => v.Single x ∧ fs.Single xs

def Variants.Single : (vs : Variants) → vs.Val → Prop
  | .nil, x => nomatch x
  | .cons fs _, .inl x => fs.Single x
  | .cons _ vs, .inr x => vs.Single x

end

/-! ## Writing it -/

theorem writeItems_paints {α : Type} {write : α → Write Unit} {byteLen : α → Nat}
    {encode : α → Bytes} {target : Bytes} {xs : List α} {bytePtr : Nat}
    (hwrites : ∀ x ∈ xs, Writes (write x) 0 (encode x))
    (hlen : ∀ x ∈ xs, (encode x).length = byteLen x)
    (hseg : Segment target bytePtr (xs.flatMap encode)) :
    Paints target (writeItems write byteLen xs bytePtr) (From bytePtr (xs.flatMap encode).length)
      (bytePtr + (xs.flatMap encode).length) := by
  induction xs generalizing bytePtr with
  | nil => exact (Paints.pure bytePtr).congr fun i => by simp [From]
  | cons x xs ih =>
    rw [List.flatMap_cons] at hseg ⊢
    have hx := hlen x List.mem_cons_self
    have hhead : Paints target (Write.suffix bytePtr (write x)) (From bytePtr (encode x).length) () :=
      Paints.of_writes (Writes.suffix bytePtr (hwrites x List.mem_cons_self)) hseg.left
    have htail := ih (fun y hy => hwrites y (List.mem_cons_of_mem x hy))
      (fun y hy => hlen y (List.mem_cons_of_mem x hy)) hseg.right
    rw [hx] at htail
    have h := hhead.bind (f := fun _ => writeItems write byteLen xs (bytePtr + byteLen x)) htail
    rw [List.length_append, ← Nat.add_assoc, hx]
    refine h.congr fun i => ?_
    simp only [From, hx]
    omega

theorem range_paints {target bs : Bytes} {a : Nat} (r : Nat) (h : Segment target a bs) :
    Paints target (do Write.range a bs; pure r) (From a bs.length) r :=
  (Paints.of_writes (Writes.range a bs) h).bind_pure r rfl

/-- A `Cow` of anything but a number skips its fixed part at first. -/
def Value.skipsFixedPart (v : Value) : Bool := v.isCow && !v.isStatic

theorem Value.skipsFixedPart_or_isCow (v : Value) : v.skipsFixedPart = false ∨ v.isCow = true := by
  unfold skipsFixedPart
  cases v.isCow <;> simp

theorem Value.writeFixedPart_of_skips : (v : Value) → v.skipsFixedPart = true → ∀ (o : ByteOffset)
    (x : v.Val) (bytePtr : Nat), v.writeFixedPart o x bytePtr = pure bytePtr
  | .cow v, h, o, x, bytePtr => by
    have hstatic : v.isStatic = false := by simpa [skipsFixedPart, isCow, isStatic] using h
    rw [writeFixedPart, hstatic, if_neg Bool.false_ne_true]

theorem Value.writeFixedPart_paints {target : Bytes} {o : ByteOffset} {bytePtr : Nat} :
    (v : Value) → (x : v.Val) → v.skipsFixedPart = false →
    Segment target (o.get bytePtr) (v.encodeFixed x) →
    Paints target (v.writeFixedPart o x bytePtr) (From (o.get bytePtr) v.fixedBytes)
      (o.next v.fixedBytes bytePtr)
  | .emptyTuple, x, _, _ | .array _ _, x, _, _ | .delegated _, x, _, _ => by
    have hnext : o.next 0 bytePtr = bytePtr := by cases o <;> rfl
    refine hnext.symm ▸ (Paints.pure bytePtr).congr fun i => ?_
    simp [From, fixedBytes]
  | .bool, _, _, hseg | .option _, _, _, hseg => range_paints _ hseg
  | .number n, x, _, hseg => by
    have h := range_paints (o.next n.bytes bytePtr) hseg
    rwa [length_encodeFixed] at h
  | .string, _, _, hseg | .vec _, _, _, hseg => by
    have h := range_paints (o.next 4 bytePtr) hseg
    rwa [length_encodeFixed] at h
  | .cow v, x, h, hseg => by
    have hstatic : v.isStatic = true := by simpa [skipsFixedPart, isCow, isStatic] using h
    have hskips : v.skipsFixedPart = false := by simp [skipsFixedPart, hstatic]
    rw [writeFixedPart, if_pos hstatic]
    exact v.writeFixedPart_paints x.get hskips hseg

/-- The code for the inside of a `Cow` or an `Option`. -/
def Value.writeInner (v : Value) (o : ByteOffset) (x : v.Val) (bytePtr : Nat) : Write Nat := do
  let bytePtr ← v.writeFixedPart o x bytePtr
  v.writeVariablePart o x bytePtr

/-- What the variable part of a field paints, at a fixed offset and in an `Option`. -/
structure Value.PaintsVariable (v : Value) (x : v.Val) : Prop where
  static : ∀ target offset bytePtr, Segment target offset (v.encodeFixed x) →
    Segment target bytePtr (v.encodeVariable x) →
    Paints target (v.writeVariablePart (.static offset) x bytePtr)
      (fun i => v.isCow = true ∧ From offset v.fixedBytes i ∨
        From bytePtr (v.encodeVariable x).length i)
      (bytePtr + (v.encodeVariable x).length)
  dynamic : (v.isCow = true → v.isStatic = false) → ∀ target bytePtr,
    Segment target bytePtr (v.encodeFixed x ++ v.encodeVariable x) →
    Paints target (v.writeInner .dynamic x bytePtr)
      (From bytePtr (v.encodeFixed x ++ v.encodeVariable x).length)
      (bytePtr + (v.encodeFixed x ++ v.encodeVariable x).length)

/-- A field that is no `Cow` has its variable part at `byte_ptr`. -/
theorem Value.PaintsVariable.of_bytePtr {v : Value} {x : v.Val} (hcow : v.isCow = false)
    (h : ∀ o target bytePtr, Segment target bytePtr (v.encodeVariable x) →
      Paints target (v.writeVariablePart o x bytePtr) (From bytePtr (v.encodeVariable x).length)
        (bytePtr + (v.encodeVariable x).length)) : v.PaintsVariable x where
  static target offset bytePtr _ hvariable :=
    (h (.static offset) target bytePtr hvariable).congr fun i => by simp [hcow]
  dynamic _ target bytePtr hseg := by
    have hskips : v.skipsFixedPart = false := by rw [skipsFixedPart, hcow, Bool.false_and]
    have hfixed := v.writeFixedPart_paints (o := .dynamic) x hskips hseg.left
    have hright := hseg.right
    rw [v.length_encodeFixed] at hright
    have hboth := hfixed.bind (h .dynamic target _ hright)
    rw [List.length_append, v.length_encodeFixed, ← Nat.add_assoc]
    refine hboth.congr fun i => ?_
    simp only [From, ByteOffset.get, ByteOffset.next]
    omega

/-- The variable part of a value that is all fixed. -/
theorem Value.PaintsVariable.of_static {v : Value} {x : v.Val} (hcow : v.isCow = false)
    (hempty : v.encodeVariable x = [])
    (h : ∀ o bytePtr, v.writeVariablePart o x bytePtr = pure bytePtr) : v.PaintsVariable x :=
  .of_bytePtr hcow fun o target bytePtr _ => by
    rw [h, hempty]
    exact (Paints.pure bytePtr).congr fun i => by simp [From]

theorem Value.PaintsVariable.cow {v : Value} {x : Cow v.Val} (h : v.PaintsVariable x.get) :
    Value.PaintsVariable (.cow v) x where
  static target offset bytePtr hfixed hvariable := by
    have hinner := h.static target offset bytePtr hfixed hvariable
    by_cases hskips : v.skipsFixedPart = true
    · have hcow : v.isCow = true := v.skipsFixedPart_or_isCow.resolve_left (by simp [hskips])
      have hw : v.writeInner (.static offset) x.get bytePtr =
          v.writeVariablePart (.static offset) x.get bytePtr := by
        rw [writeInner, v.writeFixedPart_of_skips hskips]
        rfl
      refine (hw ▸ hinner).congr fun i => ?_
      show v.isCow = true ∧ _ ∨ _ ↔ true = true ∧ From offset v.fixedBytes i ∨ _
      rw [hcow]
      rfl
    · have hpaint : Paints target (v.writeFixedPart (.static offset) x.get bytePtr) _ _ :=
        v.writeFixedPart_paints (o := .static offset) x.get (by simpa using hskips) hfixed
      refine (hpaint.bind hinner).congr fun i => ?_
      show From offset v.fixedBytes i ∨ _ ↔ true = true ∧ From offset v.fixedBytes i ∨ _
      tauto
  dynamic hstatic target bytePtr hseg := by
    have hv : v.isStatic = false := hstatic rfl
    have hw : Value.writeInner (.cow v) .dynamic x bytePtr =
        v.writeInner .dynamic x.get bytePtr := by
      have hskips : (Value.cow v).skipsFixedPart = true := by
        rw [skipsFixedPart, hstatic rfl]
        rfl
      rw [writeInner, (Value.cow v).writeFixedPart_of_skips hskips]
      rfl
    rw [hw]
    exact h.dynamic (fun _ => hv) target bytePtr hseg

theorem Value.PaintsVariable.some {v : Value} {x : v.Val} (h : v.PaintsVariable x)
    (hsingle : v.isCow = true → v.isStatic = false) :
    Value.PaintsVariable (.option v) (Option.some x) :=
  .of_bytePtr rfl fun _ target bytePtr hseg => h.dynamic hsingle target bytePtr hseg

theorem Value.PaintsVariable.items {t : Ty} {xs : List t.Val}
    (h : ∀ x ∈ xs, Writes (t.writeToBytes x) 0 (t.encode x)) {target : Bytes} {bytePtr : Nat}
    (hseg : Segment target bytePtr (xs.flatMap t.encode)) :
    Paints target (writeItems t.writeToBytes t.byteLen xs bytePtr)
      (From bytePtr (xs.flatMap t.encode).length) (bytePtr + (xs.flatMap t.encode).length) :=
  writeItems_paints h (fun x _ => t.length_encode x) hseg

theorem Value.PaintsVariable.delegated {t : Ty} {x : t.Val}
    (h : Writes (t.writeToBytes x) 0 (t.encode x)) : Value.PaintsVariable (.delegated t) x :=
  .of_bytePtr rfl fun _ target bytePtr hseg => by
    have hpaint := Paints.of_writes (Writes.suffix bytePtr h) hseg
    refine hpaint.bind_pure (bytePtr + (t.encode x).length) ?_
    rw [t.length_encode]

/-! ### Fields in a row -/

/-- The places of the fixed parts that are written at first. -/
def Fields.fixedPlaces : Fields → Nat → Nat → Prop
  | .nil, _, _ => False
  | .cons v fs, offset, i => v.skipsFixedPart = false ∧ From offset v.fixedBytes i ∨
    fs.fixedPlaces (offset + v.fixedBytes) i

/-- The places of the fixed parts that are written with the variable ones. -/
def Fields.cowPlaces : Fields → Nat → Nat → Prop
  | .nil, _, _ => False
  | .cons v fs, offset, i => v.isCow = true ∧ From offset v.fixedBytes i ∨
    fs.cowPlaces (offset + v.fixedBytes) i

/-- No fixed part is left out. -/
theorem Fields.fixedPlaces_or_cowPlaces (fs : Fields) (offset i : Nat) :
    fs.fixedPlaces offset i ∨ fs.cowPlaces offset i ↔ From offset fs.fixedBytes i := by
  match fs with
  | .nil => simp [fixedPlaces, cowPlaces, From, fixedBytes]
  | .cons v fs =>
    have hrest := fs.fixedPlaces_or_cowPlaces (offset + v.fixedBytes) i
    have hv := v.skipsFixedPart_or_isCow
    simp only [fixedPlaces, cowPlaces, fixedBytes, From] at hrest ⊢
    constructor
    · rintro ((⟨-, h⟩ | h) | (⟨-, h⟩ | h))
      · omega
      · have := hrest.mp (.inl h)
        omega
      · omega
      · have := hrest.mp (.inr h)
        omega
    · intro h
      by_cases hi : i < offset + v.fixedBytes
      · rcases hv with hv | hv
        · exact .inl (.inl ⟨hv, h.1, hi⟩)
        · exact .inr (.inl ⟨hv, h.1, hi⟩)
      · rcases hrest.mpr ⟨by omega, by omega⟩ with h | h
        · exact .inl (.inr h)
        · exact .inr (.inr h)

theorem Fields.writeFixedPart_paints {target : Bytes} : (fs : Fields) → (x : fs.Val) →
    (offset : Nat) → Segment target offset (fs.encodeFixed x) →
    Paints target (fs.writeFixedPart offset x) (fs.fixedPlaces offset) ()
  | .nil, _, _, _ => Paints.pure ()
  | .cons v fs, (x, xs), offset, hseg => by
    have hright := hseg.right
    rw [v.length_encodeFixed] at hright
    have hrest := fs.writeFixedPart_paints xs (offset + v.fixedBytes) hright
    by_cases hskips : v.skipsFixedPart = true
    · have hpure : Paints target (pure 0) (fun _ => False) 0 := Paints.pure 0
      have hfirst := hpure.bind (f := fun _ => fs.writeFixedPart (offset + v.fixedBytes) xs) hrest
      rw [writeFixedPart, v.writeFixedPart_of_skips hskips]
      exact hfirst.congr fun i => by simp [fixedPlaces, hskips]
    · have hv : v.skipsFixedPart = false := by simpa using hskips
      have hfirst : Paints target (v.writeFixedPart (.static offset) x 0) _ _ :=
        v.writeFixedPart_paints (o := .static offset) x hv hseg.left
      refine (hfirst.bind (f := fun _ => fs.writeFixedPart (offset + v.fixedBytes) xs)
        hrest).congr fun i => ?_
      simp only [fixedPlaces, hv, true_and, ByteOffset.get]

/-- What the variable parts of fields paint. -/
def Fields.PaintsVariable (fs : Fields) (x : fs.Val) : Prop :=
  ∀ target offset bytePtr, Segment target offset (fs.encodeFixed x) →
    Segment target bytePtr (fs.encodeVariable x) →
    Paints target (fs.writeVariablePart offset x bytePtr)
      (fun i => fs.cowPlaces offset i ∨ From bytePtr (fs.encodeVariable x).length i)
      (bytePtr + (fs.encodeVariable x).length)

theorem Fields.PaintsVariable.nil : Fields.PaintsVariable .nil () := fun _ _ bytePtr _ _ =>
  (Paints.pure bytePtr).congr fun i => by simp [From, cowPlaces, encodeVariable]

theorem Fields.PaintsVariable.cons {v : Value} {fs : Fields} {x : v.Val} {xs : fs.Val}
    (hv : v.PaintsVariable x) (hfs : fs.PaintsVariable xs) :
    Fields.PaintsVariable (.cons v fs) (x, xs) := by
  intro target offset bytePtr hfixed hvariable
  have hright := hfixed.right
  rw [v.length_encodeFixed] at hright
  have hfirst := hv.static target offset bytePtr hfixed.left hvariable.left
  have hrest := hfs target _ _ hright hvariable.right
  rw [encodeVariable, List.length_append, ← Nat.add_assoc]
  refine (hfirst.bind (f := fun bytePtr => fs.writeVariablePart (offset + v.fixedBytes) xs bytePtr)
    hrest).congr fun i => ?_
  rw [cowPlaces, ← from_append]
  tauto

/-- Both parts of the fields, one after the other. -/
theorem Fields.PaintsVariable.both {fs : Fields} {x : fs.Val} (h : fs.PaintsVariable x)
    {target : Bytes} {offset : Nat}
    (hseg : Segment target offset (fs.encodeFixed x ++ fs.encodeVariable x)) {α : Type} (r : α) :
    Paints target (do
        fs.writeFixedPart offset x
        let _ ← fs.writeVariablePart offset x (offset + fs.fixedBytes)
        pure r)
      (From offset (fs.encodeFixed x ++ fs.encodeVariable x).length) r := by
  have hright := hseg.right
  rw [fs.length_encodeFixed] at hright
  have hfixed := fs.writeFixedPart_paints x offset hseg.left
  have hvariable := (h target offset _ hseg.left hright).bind_pure (f := fun _ => pure r) r rfl
  refine (hfixed.bind (f := fun _ => fs.writeVariablePart offset x (offset + fs.fixedBytes) >>=
    fun _ => pure r) hvariable).congr fun i => ?_
  have hiff := fs.fixedPlaces_or_cowPlaces offset i
  rw [← or_assoc, hiff, List.length_append, fs.length_encodeFixed, from_append]

/-- The number of the variant is written last. -/
theorem Variants.writes {vs : Variants} {x : vs.Val} (hlen : vs.length ≤ 256)
    (h : ∀ target, Segment target vs.variantLen (vs.encode x) →
      Paints target (vs.write vs.variantLen x) (From vs.variantLen (vs.encode x).length)
        (vs.variantId x)) :
    Writes (Ty.writeToBytes (.enum vs) x) 0 (Ty.encode (.enum vs) x) := by
  refine Paints.writes ?_
  rw [Ty.encode, Ty.writeToBytes]
  by_cases hone : vs.length ≤ 1
  · rw [Variants.variantLen_of_le_one hone] at h ⊢
    exact (h (vs.encode x) (Segment.refl _)).bind_pure () (if_pos hone)
  · rw [Variants.variantLen_eq_one (by omega) hlen] at h ⊢
    have hbody := h (toLe 1 (vs.variantId x) ++ vs.encode x)
      ⟨toLe 1 (vs.variantId x), [], (List.append_nil _).symm, rfl⟩
    have htag : Paints (toLe 1 (vs.variantId x) ++ vs.encode x)
        (Write.byte 0 (UInt8.ofNat (vs.variantId x))) (From 0 1) () :=
      Paints.of_writes (Writes.range 0 _) (Segment.self _ _)
    have hif : Paints (toLe 1 (vs.variantId x) ++ vs.encode x)
        (if vs.length ≤ 1 then pure () else Write.byte 0 (UInt8.ofNat (vs.variantId x)))
        (From 0 1) () := by
      rw [if_neg hone]
      exact htag
    refine (hbody.bind hif).congr fun i => ?_
    rw [List.length_append, length_toLe, ← from_append, or_comm]

/-! ### Every type -/

mutual

theorem Value.paintsVariable : (v : Value) → v.Accepted → (x : v.Val) → v.Single x →
    v.PaintsVariable x
  | .emptyTuple, _, _, _ | .bool, _, _, _ | .number _, _, _, _ | .option _, _, none, _ =>
    .of_static rfl rfl fun _ _ => rfl
  | .string, _, _, _ => .of_bytePtr rfl fun _ _ _ hseg => range_paints _ hseg
  | .cow v, h, x, hx => .cow (v.paintsVariable h.2.2 x.get hx)
  | .option v, h, some x, hx => .some (v.paintsVariable h x hx.2) hx.1
  | .array t _, h, _, hx => .of_bytePtr rfl fun _ _ _ hseg =>
    Value.PaintsVariable.items (fun x hmem => t.writes h x (hx x hmem)) hseg
  | .vec t, h, _, hx => .of_bytePtr rfl fun _ _ _ hseg =>
    Value.PaintsVariable.items (fun x hmem => t.writes h x (hx x hmem)) hseg
  | .delegated t, h, x, hx => .delegated (t.writes h x hx)

/-- A value whose bytes are written once is written as its encoding. -/
theorem Ty.writes : (t : Ty) → t.Accepted → (x : t.Val) → t.Single x →
    Writes (t.writeToBytes x) 0 (t.encode x)
  | .lone v, h, x, hx => by
    have hfields : Fields.PaintsVariable (.cons v .nil) (x, ()) :=
      .cons (v.paintsVariable h x hx) Fields.PaintsVariable.nil
    have hpaint := hfields.both (Segment.refl _) ()
    rw [Nat.zero_add] at hpaint
    have hwrites := hpaint.writes
    simp only [Fields.encodeFixed, Fields.encodeVariable, List.append_nil, Fields.writeFixedPart,
      Fields.writeVariablePart, Fields.fixedBytes, bind_assoc, pure_bind, Nat.add_zero] at hwrites
    exact hwrites
  | .struct fs, h, x, hx => by
    have hpaint := (fs.paintsVariable h x hx).both (Segment.refl _) ()
    rw [Nat.zero_add] at hpaint
    exact hpaint.writes
  | .enum vs, h, x, hx => Variants.writes h.2.1 fun target hseg =>
    vs.paints h.2.2 x hx target vs.variantLen hseg

theorem Fields.paintsVariable : (fs : Fields) → fs.Accepted → (x : fs.Val) → fs.Single x →
    fs.PaintsVariable x
  | .nil, _, _, _ => Fields.PaintsVariable.nil
  | .cons v fs, h, (x, xs), hx => .cons (v.paintsVariable h.1 x hx.1) (fs.paintsVariable h.2 xs hx.2)

theorem Variants.paints : (vs : Variants) → vs.Accepted → (x : vs.Val) → vs.Single x →
    ∀ target variantLen, Segment target variantLen (vs.encode x) →
    Paints target (vs.write variantLen x) (From variantLen (vs.encode x).length) (vs.variantId x)
  | .nil, _, x, _ => nomatch x
  | .cons fs _, h, .inl x, hx => fun _ _ hseg => (fs.paintsVariable h.1 x hx).both hseg 0
  | .cons _ vs, h, .inr x, hx => fun target variantLen hseg =>
    (vs.paints h.2 x hx target variantLen hseg).bind_pure (vs.variantId x + 1) rfl

end

end MiniUdp.Derive
