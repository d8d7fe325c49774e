import MiniUdp.Derive.Measured

/-!
# The code as it runs

The code steps over what has an impl of its own by its `byte_len`, which may
never return. Here the readers and writers call it. They do what they do when
it returns, the codec without such calls, unless they step over a value that is
not measured (`Ty.runWriteToBytes_eq`, `Ty.runRead_runs`).
-/

namespace MiniUdp

/-- A call between two writes. -/
def Write.call {α : Type} (r : Res α) : Write α := fun bytes => (bytes, r)

namespace Derive

open Outcome Utf8

/-! ## Writing -/

def runWriteItems {α : Type} (write : α → Write Unit) (byteLen : α → Res Nat) :
    List α → Nat → Write Nat
  | [], bytePtr => pure bytePtr
  | item :: items, bytePtr => do
    Write.suffix bytePtr (write item)
    let len ← Write.call (byteLen item)
    runWriteItems write byteLen items (bytePtr + len)

mutual

/-- `write_variable_part`, run. -/
def Value.runWriteVariablePart : (v : Value) → ByteOffset → v.Val → Nat → Write Nat
  | .emptyTuple, _, _, bytePtr | .bool, _, _, bytePtr | .number _, _, _, bytePtr => pure bytePtr
  | .string, _, s, bytePtr => do
    Write.range bytePtr (asBytes s)
    pure (bytePtr + (asBytes s).length)
  | .cow v, o, x, bytePtr => do
    let bytePtr ← v.writeFixedPart o x.get bytePtr
    v.runWriteVariablePart o x.get bytePtr
  | .option v, _, some x, bytePtr => do
    let bytePtr ← v.writeFixedPart .dynamic x bytePtr
    v.runWriteVariablePart .dynamic x bytePtr
  | .option _, _, none, bytePtr => pure bytePtr
  | .array t _, _, xs, bytePtr => runWriteItems t.runWriteToBytes t.runByteLen xs.val bytePtr
  | .vec t, _, xs, bytePtr => runWriteItems t.runWriteToBytes t.runByteLen xs bytePtr
  | .delegated t, _, x, bytePtr => do
    Write.suffix bytePtr (t.runWriteToBytes x)
    let len ← Write.call (t.runByteLen x)
    pure (bytePtr + len)

/-- `write_to_bytes`, run. -/
def Ty.runWriteToBytes : (t : Ty) → t.Val → Write Unit
  | .lone v, x => do
    let _ ← v.writeFixedPart (.static 0) x 0
    let _ ← v.runWriteVariablePart (.static 0) x v.fixedBytes
    pure ()
  | .struct fs, x => do
    fs.writeFixedPart 0 x
    let _ ← fs.runWriteVariablePart 0 x fs.fixedBytes
    pure ()
  | .enum vs, x => do
    let variantId ← vs.runWrite vs.variantLen x
    if vs.length ≤ 1 then pure () else Write.byte 0 (UInt8.ofNat variantId)

def Fields.runWriteVariablePart : (fs : Fields) → Nat → fs.Val → Nat → Write Nat
  | .nil, _, _, bytePtr => pure bytePtr
  | .cons v fs, offset, (x, xs), bytePtr => do
    let bytePtr ← v.runWriteVariablePart (.static offset) x bytePtr
    fs.runWriteVariablePart (offset + v.fixedBytes) xs bytePtr

def Variants.runWrite : (vs : Variants) → Nat → vs.Val → Write Nat
  | .nil, _, x => nomatch x
  | .cons fs _, variantLen, .inl x => do
    fs.writeFixedPart variantLen x
    let _ ← fs.runWriteVariablePart variantLen x (variantLen + fs.fixedBytes)
    pure 0
  | .cons _ vs, variantLen, .inr x => do
    let variantId ← vs.runWrite variantLen x
    pure (variantId + 1)

end

/-! ## Reading -/

def runReadItems {α : Type} (fromBytes : Bytes → Res α) (byteLen : α → Res Nat) (bytes : Bytes) :
    (n : Nat) → Nat → Res ({ xs : List α // xs.length = n } × Nat)
  | 0, bytePtr => pure (⟨[], rfl⟩, bytePtr)
  | n + 1, bytePtr => do
    let rest ← suffixFrom bytes bytePtr
    let item ← fromBytes rest
    let len ← byteLen item
    let (items, bytePtr) ← runReadItems fromBytes byteLen bytes n (bytePtr + len)
    pure (⟨item :: items.val, congrArg (· + 1) items.property⟩, bytePtr)

mutual

/-- `read_variable_part`, run. -/
def Value.runReadVariablePart :
    (v : Value) → ByteOffset → v.Fixed → Bytes → Nat → Res (v.Val × Nat)
  | .emptyTuple, _, x, _, bytePtr | .bool, _, x, _, bytePtr | .number _, _, x, _, bytePtr =>
    pure (x, bytePtr)
  | .string, _, len, bytes, bytePtr => readString len bytes bytePtr
  | .cow v, o, _, bytes, bytePtr => do
    let (f, bytePtr) ← v.readFixedPart o bytes bytePtr
    let (x, bytePtr) ← v.runReadVariablePart o f bytes bytePtr
    pure (Cow.owned x, bytePtr)
  | .option v, _, isSome, bytes, bytePtr =>
    match isSome with
    | true => do
      let (f, bytePtr) ← v.readFixedPart .dynamic bytes bytePtr
      let (x, bytePtr) ← v.runReadVariablePart .dynamic f bytes bytePtr
      pure (some x, bytePtr)
    | false => pure (none, bytePtr)
  | .array t length, _, _, bytes, bytePtr =>
    runReadItems (fun bytes => value (t.runRead bytes)) t.runByteLen bytes length bytePtr
  | .vec t, _, len, bytes, bytePtr => do
    let (xs, bytePtr) ← runReadItems (fun bytes => value (t.runRead bytes)) t.runByteLen bytes len
      bytePtr
    pure (xs.val, bytePtr)
  | .delegated t, _, _, bytes, bytePtr => do
    let rest ← suffixFrom bytes bytePtr
    let x ← value (t.runRead rest)
    let len ← t.runByteLen x
    pure (x, bytePtr + len)

/-- `from_bytes`, run, with the `byte_ptr` in the end. -/
def Ty.runRead : (t : Ty) → Bytes → Res (t.Val × Nat)
  | .lone v, bytes => do
    let (f, _) ← v.readFixedPart (.static 0) bytes 0
    v.runReadVariablePart (.static 0) f bytes v.fixedBytes
  | .struct fs, bytes => do
    let f ← fs.readFixedPart 0 bytes
    fs.runReadVariablePart 0 f bytes fs.fixedBytes
  | .enum vs, bytes =>
    if vs.length ≤ 1 then vs.runRead vs.variantLen 0 bytes
    else do
      let variantId ← readByte bytes 0
      vs.runRead vs.variantLen variantId.toNat bytes

def Fields.runReadVariablePart :
    (fs : Fields) → Nat → fs.Fixed → Bytes → Nat → Res (fs.Val × Nat)
  | .nil, _, _, _, bytePtr => pure ((), bytePtr)
  | .cons v fs, offset, (f, rest), bytes, bytePtr => do
    let (x, bytePtr) ← v.runReadVariablePart (.static offset) f bytes bytePtr
    let (xs, bytePtr) ← fs.runReadVariablePart (offset + v.fixedBytes) rest bytes bytePtr
    pure ((x, xs), bytePtr)

def Variants.runRead : (vs : Variants) → Nat → Nat → Bytes → Res (vs.Val × Nat)
  | .nil, _, _, _ => .err .invalidValue
  | .cons fs _, variantLen, 0, bytes => do
    let f ← fs.readFixedPart variantLen bytes
    let (x, bytePtr) ← fs.runReadVariablePart variantLen f bytes (variantLen + fs.fixedBytes)
    pure (.inl x, bytePtr)
  | .cons _ vs, variantLen, variantId + 1, bytes => do
    let (x, bytePtr) ← vs.runRead variantLen variantId bytes
    pure (.inr x, bytePtr)

end

/-- `from_bytes`, run. -/
def Ty.runFromBytes (t : Ty) (bytes : Bytes) : Res t.Val := value (t.runRead bytes)

/-! ## What is stepped over -/

section

variable (P : (t : Ty) → t.Val → Prop)

/-- `P` holds of the values with an impl of their own in a field. -/
def Value.Parts : (v : Value) → v.Val → Prop
  | .emptyTuple, _ | .bool, _ | .number _, _ | .string, _ | .option _, none => True
  | .cow v, x => v.Parts x.get
  | .option v, some x => v.Parts x
  | .array t _, xs => ∀ x ∈ xs.val, P t x
  | .vec t, xs => ∀ x ∈ xs, P t x
  | .delegated t, x => P t x

def Fields.Parts : (fs : Fields) → fs.Val → Prop
  | .nil, _ => True
  | .cons v fs, (x, xs) => v.Parts P x ∧ fs.Parts xs

def Variants.Parts : (vs : Variants) → vs.Val → Prop
  | .nil, x => nomatch x
  | .cons fs _, .inl x => fs.Parts P x
  | .cons _ vs, .inr x => vs.Parts x

def Ty.Parts : (t : Ty) → t.Val → Prop
  | .lone v, x => v.Parts P x
  | .struct fs, x => fs.Parts P x
  | .enum vs, x => vs.Parts P x

end

/-- Every value that the code for the value steps over is measured. -/
def Ty.Stepped (t : Ty) (x : t.Val) : Prop := t.Parts Ty.Measured x

theorem Value.parts_of_measured : (v : Value) → (x : v.Val) → v.Measured x →
    v.Parts Ty.Measured x
  | .emptyTuple, _, _ | .bool, _, _ | .number _, _, _ | .string, _, _ | .option _, none, _ => trivial
  | .cow v, x, h => v.parts_of_measured x.get h.2
  | .option v, some x, h => v.parts_of_measured x h
  | .array _ _, _, h | .vec _, _, h | .delegated _, _, h => h

theorem Fields.parts_of_measured : (fs : Fields) → (x : fs.Val) → fs.Measured x →
    fs.Parts Ty.Measured x
  | .nil, _, _ => trivial
  | .cons v fs, (x, xs), h => ⟨v.parts_of_measured x h.1, fs.parts_of_measured xs h.2⟩

theorem Variants.parts_of_measured : (vs : Variants) → (x : vs.Val) → vs.Measured x →
    vs.Parts Ty.Measured x
  | .nil, x, _ => nomatch x
  | .cons fs _, .inl x, h => fs.parts_of_measured x h
  | .cons _ vs, .inr x, h => vs.parts_of_measured x h

/-- A value that is measured has only measured values to step over. -/
theorem Ty.stepped_of_measured : (t : Ty) → (x : t.Val) → t.Measured x → t.Stepped x
  | .lone v, x, h => v.parts_of_measured x h
  | .struct fs, x, h => fs.parts_of_measured x h
  | .enum vs, x, h => vs.parts_of_measured x h

mutual

/-- Every value of the type is measured. -/
def Value.Measurable : Value → Prop
  | .emptyTuple | .bool | .number _ | .string => True
  | .cow v => v.isDelegated = false ∧ v.Measurable
  | .option v => v.Measurable
  | .array t length => length = 0 ∨ t.Measurable
  | .vec t | .delegated t => t.Measurable

def Ty.Measurable : Ty → Prop
  | .lone v => v.Measurable
  | .struct fs => fs.Measurable
  | .enum vs => vs.Measurable

def Fields.Measurable : Fields → Prop
  | .nil => True
  | .cons v fs => v.Measurable ∧ fs.Measurable

def Variants.Measurable : Variants → Prop
  | .nil => True
  | .cons fs vs => fs.Measurable ∧ vs.Measurable

end

mutual

theorem Value.measured_of_measurable : (v : Value) → v.Measurable → (x : v.Val) → v.Measured x
  | .emptyTuple, _, _ | .bool, _, _ | .number _, _, _ | .string, _, _ | .option _, _, none =>
    trivial
  | .cow v, h, x => ⟨h.1, v.measured_of_measurable h.2 x.get⟩
  | .option v, h, some x => v.measured_of_measurable h x
  | .array t _, h, xs => fun x hx => by
    rcases h with h | h
    · rw [List.eq_nil_of_length_eq_zero (xs.property.trans h)] at hx
      cases hx
    · exact t.measured_of_measurable h x
  | .vec t, h, _ => fun x _ => t.measured_of_measurable h x
  | .delegated t, h, x => t.measured_of_measurable h x

theorem Ty.measured_of_measurable : (t : Ty) → t.Measurable → (x : t.Val) → t.Measured x
  | .lone v, h, x => v.measured_of_measurable h x
  | .struct fs, h, x => fs.measured_of_measurable h x
  | .enum vs, h, x => vs.measured_of_measurable h x

theorem Fields.measured_of_measurable : (fs : Fields) → fs.Measurable → (x : fs.Val) →
    fs.Measured x
  | .nil, _, _ => trivial
  | .cons v fs, h, (x, xs) => ⟨v.measured_of_measurable h.1 x, fs.measured_of_measurable h.2 xs⟩

theorem Variants.measured_of_measurable : (vs : Variants) → vs.Measurable → (x : vs.Val) →
    vs.Measured x
  | .nil, _, x => nomatch x
  | .cons fs _, h, .inl x => fs.measured_of_measurable h.1 x
  | .cons _ vs, h, .inr x => vs.measured_of_measurable h.2 x

end

mutual

theorem Value.measurable_of_cowFree : (v : Value) → v.CowFree → v.Measurable
  | .emptyTuple, _ | .bool, _ | .number _, _ | .string, _ => trivial
  | .option v, h => v.measurable_of_cowFree h
  | .array t _, h => .inr (t.measurable_of_cowFree h)
  | .vec t, h | .delegated t, h => t.measurable_of_cowFree h

theorem Ty.measurable_of_cowFree : (t : Ty) → t.CowFree → t.Measurable
  | .lone v, h => v.measurable_of_cowFree h
  | .struct fs, h => fs.measurable_of_cowFree h
  | .enum vs, h => vs.measurable_of_cowFree h

theorem Fields.measurable_of_cowFree : (fs : Fields) → fs.CowFree → fs.Measurable
  | .nil, _ => trivial
  | .cons v fs, h => ⟨v.measurable_of_cowFree h.1, fs.measurable_of_cowFree h.2⟩

theorem Variants.measurable_of_cowFree : (vs : Variants) → vs.CowFree → vs.Measurable
  | .nil, _ => trivial
  | .cons fs vs, h => ⟨fs.measurable_of_cowFree h.1, vs.measurable_of_cowFree h.2⟩

end

theorem Ty.measured_of_cowFree (t : Ty) (h : t.CowFree) (x : t.Val) : t.Measured x :=
  t.measured_of_measurable (t.measurable_of_cowFree h) x

/-- Every type whose values the code for the field steps over has only measured ones. -/
def Value.Steppable : Value → Prop
  | .emptyTuple | .bool | .number _ | .string => True
  | .cow v | .option v => v.Steppable
  | .array t length => length = 0 ∨ t.Measurable
  | .vec t | .delegated t => t.Measurable

def Fields.Steppable : Fields → Prop
  | .nil => True
  | .cons v fs => v.Steppable ∧ fs.Steppable

def Variants.Steppable : Variants → Prop
  | .nil => True
  | .cons fs vs => fs.Steppable ∧ vs.Steppable

def Ty.Steppable : Ty → Prop
  | .lone v => v.Steppable
  | .struct fs => fs.Steppable
  | .enum vs => vs.Steppable

theorem Value.steppable_of_measurable : (v : Value) → v.Measurable → v.Steppable
  | .emptyTuple, _ | .bool, _ | .number _, _ | .string, _ => trivial
  | .cow v, h => v.steppable_of_measurable h.2
  | .option v, h => v.steppable_of_measurable h
  | .array _ _, h | .vec _, h | .delegated _, h => h

theorem Fields.steppable_of_measurable : (fs : Fields) → fs.Measurable → fs.Steppable
  | .nil, _ => trivial
  | .cons v fs, h => ⟨v.steppable_of_measurable h.1, fs.steppable_of_measurable h.2⟩

theorem Variants.steppable_of_measurable : (vs : Variants) → vs.Measurable → vs.Steppable
  | .nil, _ => trivial
  | .cons fs vs, h => ⟨fs.steppable_of_measurable h.1, vs.steppable_of_measurable h.2⟩

theorem Ty.steppable_of_measurable : (t : Ty) → t.Measurable → t.Steppable
  | .lone v, h => v.steppable_of_measurable h
  | .struct fs, h => fs.steppable_of_measurable h
  | .enum vs, h => vs.steppable_of_measurable h

/-! ## Writers that step over measured values -/

theorem runWriteItems_eq {α : Type} {run write : α → Write Unit} {byteLen : α → Res Nat}
    {len : α → Nat} {xs : List α} (h : ∀ x ∈ xs, run x = write x ∧ byteLen x = .ok (len x))
    (bytePtr : Nat) : runWriteItems run byteLen xs bytePtr = writeItems write len xs bytePtr := by
  induction xs generalizing bytePtr with
  | nil => rfl
  | cons x xs ih =>
    obtain ⟨hrun, hlen⟩ := h x List.mem_cons_self
    have hxs := ih (fun y hy => h y (List.mem_cons_of_mem x hy)) (bytePtr + len x)
    rw [runWriteItems, writeItems, hrun, hlen, ← hxs]
    rfl

mutual

theorem Value.runWriteVariablePart_eq : (v : Value) → (x : v.Val) → v.Parts Ty.Measured x →
    ∀ o bytePtr, v.runWriteVariablePart o x bytePtr = v.writeVariablePart o x bytePtr
  | .emptyTuple, _, _, _, _ | .bool, _, _, _, _ | .number _, _, _, _, _ | .string, _, _, _, _
  | .option _, none, _, _, _ => rfl
  | .cow v, x, h, o, _ => bind_congr fun bytePtr => v.runWriteVariablePart_eq x.get h o bytePtr
  | .option v, some x, h, _, _ =>
    bind_congr fun bytePtr => v.runWriteVariablePart_eq x h .dynamic bytePtr
  | .array t _, _, h, _, bytePtr | .vec t, _, h, _, bytePtr => runWriteItems_eq (fun x hx =>
    ⟨t.runWriteToBytes_eq x (t.stepped_of_measured x (h x hx)), Ty.runByteLen_of_measured (h x hx)⟩)
      bytePtr
  | .delegated t, x, h, _, bytePtr => by
    have hrun := t.runWriteToBytes_eq x (t.stepped_of_measured x h)
    rw [Value.runWriteVariablePart, Value.writeVariablePart, hrun, Ty.runByteLen_of_measured h]
    rfl

/-- A writer that steps over measured values is the one of the codec. -/
theorem Ty.runWriteToBytes_eq : (t : Ty) → (x : t.Val) → t.Stepped x →
    t.runWriteToBytes x = t.writeToBytes x
  | .lone v, x, h => by
    rw [Ty.runWriteToBytes, v.runWriteVariablePart_eq x h, Ty.writeToBytes]
  | .struct fs, x, h => by
    rw [Ty.runWriteToBytes, fs.runWriteVariablePart_eq x h, Ty.writeToBytes]
  | .enum vs, x, h => by
    rw [Ty.runWriteToBytes, vs.runWrite_eq x h, Ty.writeToBytes]

theorem Fields.runWriteVariablePart_eq : (fs : Fields) → (x : fs.Val) → fs.Parts Ty.Measured x →
    ∀ offset bytePtr,
    fs.runWriteVariablePart offset x bytePtr = fs.writeVariablePart offset x bytePtr
  | .nil, _, _, _, _ => rfl
  | .cons v fs, (x, xs), h, offset, bytePtr => by
    rw [Fields.runWriteVariablePart, v.runWriteVariablePart_eq x h.1, Fields.writeVariablePart]
    exact bind_congr fun bytePtr => fs.runWriteVariablePart_eq xs h.2 _ bytePtr

theorem Variants.runWrite_eq : (vs : Variants) → (x : vs.Val) → vs.Parts Ty.Measured x →
    ∀ variantLen, vs.runWrite variantLen x = vs.write variantLen x
  | .nil, x, _, _ => nomatch x
  | .cons fs _, .inl x, h, variantLen => by
    rw [Variants.runWrite, fs.runWriteVariablePart_eq x h, Variants.write]
  | .cons _ vs, .inr x, h, variantLen => by
    rw [Variants.runWrite, vs.runWrite_eq x h, Variants.write]

end

/-! ## Readers that step over measured values -/

/-- The reader is the one of the codec, unless it steps over a value that is not measured. -/
def Ty.ReadRuns (t : Ty) : Prop := ∀ bytes,
  (t.runRead bytes).Runs t.Steppable (fun y => t.Stepped y.1) (t.read bytes)

/-- Reading a value and stepping over it. -/
theorem Ty.ReadRuns.step {t : Ty} (h : t.ReadRuns) {β : Type} {total : Prop}
    (ht : total → t.Measurable) {f : t.Val → Nat → Res β} {g : t.Val → Res β}
    {Q : t.Val → β → Prop} {R : β → Prop}
    (hf : ∀ x, (f x (t.byteLen x)).Runs total (Q x) (g x))
    (hR : ∀ x b, g x = .ok b → (R b ↔ t.Measured x ∧ Q x b)) (rest : Bytes) :
    (do
      let x ← value (t.runRead rest)
      let len ← t.runByteLen x
      f x len).Runs total R (value (t.read rest) >>= g) := by
  have hitem : (value (t.runRead rest)).Runs total t.Stepped (value (t.read rest)) :=
    ((h rest).map fun _ _ => Iff.rfl).mono fun hall => t.steppable_of_measurable (ht hall)
  refine hitem.bind (Q := fun x b => t.Measured x ∧ Q x b) (fun x _ => ?_) fun x b _ hb => ?_
  · exact .step (t.runByteLen_returnsIff x) (fun hall => t.measured_of_measurable (ht hall) x)
      (fun _ => hf x) fun _ _ => Iff.rfl
  · rw [hR x b hb]
    exact ⟨fun h => ⟨t.stepped_of_measured x h.1, h⟩, fun h => h.2⟩

theorem Ty.ReadRuns.items {t : Ty} (h : t.ReadRuns) (bytes : Bytes) (n bytePtr : Nat) :
    (runReadItems (fun bytes => value (t.runRead bytes)) t.runByteLen bytes n bytePtr).Runs
      (n = 0 ∨ t.Measurable) (fun y => ∀ x ∈ y.1.val, t.Measured x)
      (readItems (fun bytes => value (t.read bytes)) t.byteLen bytes n bytePtr) := by
  induction n generalizing bytePtr with
  | zero => exact (Runs.refl _).of_iff fun y hy => by cases hy; simp
  | succ n ih =>
    have hall : n + 1 = 0 ∨ t.Measurable → t.Measurable := fun ht =>
      ht.resolve_left (Nat.succ_ne_zero n)
    refine .of_bind fun rest _ => h.step hall (Q := fun _ y => ∀ x ∈ y.1.val.tail, t.Measured x)
      (fun x => ?_) (fun x y hy => ?_) rest
    · refine ((ih _).mono fun ht => .inr (hall ht)).map fun y _ => ?_
      rfl
    · obtain ⟨ys, -, hys⟩ := Outcome.bind_eq_ok.mp hy
      cases hys
      exact List.forall_mem_cons

mutual

theorem Value.runReadVariablePart_runs : (v : Value) → ∀ o f bytes bytePtr,
    (v.runReadVariablePart o f bytes bytePtr).Runs v.Steppable (fun y => v.Parts Ty.Measured y.1)
      (v.readVariablePart o f bytes bytePtr)
  | .emptyTuple, _, _, _, _ | .bool, _, _, _, _ | .number _, _, _, _, _ | .string, _, _, _, _ =>
    .refl _
  | .cow v, o, _, bytes, _ => .of_bind fun (f, p) _ =>
    (v.runReadVariablePart_runs o f bytes p).map fun _ _ => Iff.rfl
  | .option v, _, true, bytes, _ => .of_bind fun (f, p) _ =>
    (v.runReadVariablePart_runs .dynamic f bytes p).map fun _ _ => Iff.rfl
  | .option _, _, false, _, _ => (Runs.refl _).of_iff fun y hy => by
    cases hy
    exact Iff.rfl
  | .array t length, _, _, bytes, bytePtr => t.runRead_runs.items bytes length bytePtr
  | .vec t, _, len, bytes, bytePtr =>
    ((t.runRead_runs.items bytes len bytePtr).mono Or.inr).map fun _ _ => Iff.rfl
  | .delegated t, _, _, _, _ => .of_bind fun rest _ =>
    t.runRead_runs.step id (Q := fun _ _ => True) (fun _ => .refl _) (fun x y hy => by
      cases hy
      exact (iff_of_eq (and_true _)).symm) rest

/-- A reader is the one of the codec, unless it steps over a value that is not measured: then it
never returns. -/
theorem Ty.runRead_runs : (t : Ty) → t.ReadRuns
  | .lone v, bytes => .of_bind fun (f, _) _ => v.runReadVariablePart_runs _ f bytes _
  | .struct fs, bytes => .of_bind fun f _ => fs.runReadVariablePart_runs 0 f bytes _
  | .enum vs, bytes => by
    rw [Ty.runRead, Ty.read]
    split
    · exact vs.runRead_runs _ _ bytes
    · exact .of_bind fun variantId _ => vs.runRead_runs _ _ bytes

theorem Fields.runReadVariablePart_runs : (fs : Fields) → ∀ offset f bytes bytePtr,
    (fs.runReadVariablePart offset f bytes bytePtr).Runs fs.Steppable
      (fun y => fs.Parts Ty.Measured y.1) (fs.readVariablePart offset f bytes bytePtr)
  | .nil, _, _, _, _ => .refl _
  | .cons v fs, offset, (f, rest), bytes, bytePtr => by
    have hv := (v.runReadVariablePart_runs (.static offset) f bytes bytePtr).mono
      (And.left : v.Steppable ∧ fs.Steppable → _)
    refine hv.bind (Q := fun _ y => fs.Parts Ty.Measured y.1.2) (fun x _ => ?_) fun x y _ hy => ?_
    · exact ((fs.runReadVariablePart_runs _ rest bytes x.2).mono And.right).map fun _ _ => Iff.rfl
    · obtain ⟨xs, -, hxs⟩ := Outcome.bind_eq_ok.mp hy
      cases hxs
      exact Iff.rfl

theorem Variants.runRead_runs : (vs : Variants) → ∀ variantLen variantId bytes,
    (vs.runRead variantLen variantId bytes).Runs vs.Steppable (fun y => vs.Parts Ty.Measured y.1)
      (vs.read variantLen variantId bytes)
  | .nil, _, _, _ => ⟨.inr rfl, fun _ h => (nomatch h), fun _ => rfl⟩
  | .cons fs _, variantLen, 0, bytes => .of_bind fun f _ =>
    ((fs.runReadVariablePart_runs variantLen f bytes _).mono And.left).map fun _ _ => Iff.rfl
  | .cons _ vs, variantLen, variantId + 1, bytes =>
    ((vs.runRead_runs variantLen variantId bytes).mono And.right).map fun _ _ => Iff.rfl

end

end Derive

end MiniUdp
