import MiniUdp.Derive.Run
import MiniUdp.Derive.Uncaptured

/-!
# Types whose fields have names

The reader of a struct inside another one has names of its own, so that a type
comes with those of all the fields in it (`Ty.Names`). Here every reader looks
its locals up by their names and steps by what `byte_len` returns: this is the
code as it is generated. It reads each field with the header that its name
stands for (`Fields.runLetVariable_ok`). Where no header is captured, in the type
or in one inside it, that is the field's own, and the names do not matter
(`Ty.runReadNamed_eq`).
-/

namespace MiniUdp.Derive

open Outcome Utf8

/-! ## Names -/

mutual

/-- The names of the fields of the types in a field. -/
@[reducible] def Value.Names : Value → Type
  | .emptyTuple | .bool | .number _ | .string => Unit
  | .cow v | .option v => v.Names
  | .array t _ | .vec t | .delegated t => t.Names

/-- The names of the fields of a type, and of the types inside it. Those of a tuple struct are its
positions. -/
@[reducible] def Ty.Names : Ty → Type
  | .lone v => v.Names
  | .struct fs => (Nat → String) × fs.Names
  | .enum vs => vs.Names

@[reducible] def Fields.Names : Fields → Type
  | .nil => Unit
  | .cons v fs => v.Names × fs.Names

@[reducible] def Variants.Names : Variants → Type
  | .nil => Unit
  | .cons fs vs => ((Nat → String) × fs.Names) × vs.Names

end

mutual

def Value.Distinct : (v : Value) → v.Names → Prop
  | .emptyTuple, _ | .bool, _ | .number _, _ | .string, _ => True
  | .cow v, ns | .option v, ns => v.Distinct ns
  | .array t length, ns => length = 0 ∨ t.Distinct ns
  | .vec t, ns | .delegated t, ns => t.Distinct ns

/-- Different fields have different names, in the type and in those inside it that can be read. -/
def Ty.Distinct : (t : Ty) → t.Names → Prop
  | .lone v, ns => v.Distinct ns
  | .struct fs, (names, ns) => Fields.Distinct fs names ∧ fs.DistinctInside ns
  | .enum vs, ns => vs.Distinct ns

def Fields.DistinctInside : (fs : Fields) → fs.Names → Prop
  | .nil, _ => True
  | .cons v fs, (n, ns) => v.Distinct n ∧ fs.DistinctInside ns

def Variants.Distinct : (vs : Variants) → vs.Names → Prop
  | .nil, _ => True
  | .cons fs vs, ((names, n), ns) =>
    (Fields.Distinct fs names ∧ fs.DistinctInside n) ∧ vs.Distinct ns

end

/-- Different fields have different names, and no header is captured. -/
def Fields.Apart (fs : Fields) (names : Nat → String) : Prop :=
  fs.Distinct names ∧ ∀ i j, ¬ fs.Captures names i j

mutual

def Value.Uncaptured : (v : Value) → v.Names → Prop
  | .emptyTuple, _ | .bool, _ | .number _, _ | .string, _ => True
  | .cow v, ns | .option v, ns => v.Uncaptured ns
  | .array t length, ns => length = 0 ∨ t.Uncaptured ns
  | .vec t, ns | .delegated t, ns => t.Uncaptured ns

/-- No header is captured, in the type or in one inside it that can be read. -/
def Ty.Uncaptured : (t : Ty) → t.Names → Prop
  | .lone v, ns => v.Uncaptured ns
  | .struct fs, (names, ns) => fs.Apart names ∧ fs.Uncaptured ns
  | .enum vs, ns => vs.Uncaptured ns

def Fields.Uncaptured : (fs : Fields) → fs.Names → Prop
  | .nil, _ => True
  | .cons v fs, (n, ns) => v.Uncaptured n ∧ fs.Uncaptured ns

def Variants.Uncaptured : (vs : Variants) → vs.Names → Prop
  | .nil, _ => True
  | .cons fs vs, ((names, n), ns) => (fs.Apart names ∧ fs.Uncaptured n) ∧ vs.Uncaptured ns

end

mutual

theorem Value.distinct_of_uncaptured : (v : Value) → (ns : v.Names) → v.Uncaptured ns →
    v.Distinct ns
  | .emptyTuple, _, _ | .bool, _, _ | .number _, _, _ | .string, _, _ => trivial
  | .cow v, ns, h | .option v, ns, h => v.distinct_of_uncaptured ns h
  | .array t _, ns, h => h.imp_right (t.distinct_of_uncaptured ns)
  | .vec t, ns, h | .delegated t, ns, h => t.distinct_of_uncaptured ns h

theorem Ty.distinct_of_uncaptured : (t : Ty) → (ns : t.Names) → t.Uncaptured ns → t.Distinct ns
  | .lone v, ns, h => v.distinct_of_uncaptured ns h
  | .struct fs, (_, ns), h => ⟨h.1.1, fs.distinct_of_uncaptured ns h.2⟩
  | .enum vs, ns, h => vs.distinct_of_uncaptured ns h

theorem Fields.distinct_of_uncaptured : (fs : Fields) → (ns : fs.Names) → fs.Uncaptured ns →
    fs.DistinctInside ns
  | .nil, _, _ => trivial
  | .cons v fs, (n, ns), h => ⟨v.distinct_of_uncaptured n h.1, fs.distinct_of_uncaptured ns h.2⟩

theorem Variants.distinct_of_uncaptured : (vs : Variants) → (ns : vs.Names) → vs.Uncaptured ns →
    vs.Distinct ns
  | .nil, _, _ => trivial
  | .cons fs vs, ((_, n), ns), h =>
    ⟨⟨h.1.1.1, fs.distinct_of_uncaptured n h.1.2⟩, vs.distinct_of_uncaptured ns h.2⟩

end

/-! ## Reading -/

mutual

/-- `read_variable_part`, with the scope and the `byte_ptr` after it. -/
def Value.runLetVariable :
    (v : Value) → v.Names → String → ByteOffset → Scope → Bytes → Nat → Res (Scope × Nat)
  | .emptyTuple, _, _, _, s, _, bytePtr | .bool, _, _, _, s, _, bytePtr
  | .number _, _, _, _, s, _, bytePtr => pure (s, bytePtr)
  | .string, _, ident, _, s, bytes, bytePtr => do
    let len ← typed ((s.lookup (fixedIdent ident)).bind Local.asUsize)
    let (x, bytePtr) ← readString len bytes bytePtr
    pure ((asTokens ident, .other .string x) :: s, bytePtr)
  | .cow v, ns, ident, o, s, bytes, bytePtr => do
    let (f, bytePtr) ← v.readFixedPart o bytes bytePtr
    let (inner, bytePtr) ← v.runLetVariable ns "inner" o (v.letFixed "inner" f s) bytes bytePtr
    let x ← typed ((inner.lookup (asTokens "inner")).bind v.ofLocal)
    pure ((asTokens ident, .other (.cow v) (.owned x)) :: s, bytePtr)
  | .option v, ns, ident, _, s, bytes, bytePtr => do
    match ← typed ((s.lookup (fixedIdent ident)).bind Local.asFlag) with
    | true =>
      let (f, bytePtr) ← v.readFixedPart .dynamic bytes bytePtr
      let (inner, bytePtr) ← v.runLetVariable ns "inner" .dynamic (v.letFixed "inner" f s) bytes
        bytePtr
      let x ← typed ((inner.lookup (asTokens "inner")).bind v.ofLocal)
      pure ((asTokens ident, .other (.option v) (some x)) :: s, bytePtr)
    | false => pure ((asTokens ident, .other (.option v) none) :: s, bytePtr)
  | .array t length, ns, ident, _, s, bytes, bytePtr => do
    let (xs, bytePtr) ← runReadItems (fun bytes => value (t.runReadNamed ns bytes)) t.runByteLen
      bytes length bytePtr
    pure ((asTokens ident, .other (.array t length) xs) :: s, bytePtr)
  | .vec t, ns, ident, _, s, bytes, bytePtr => do
    let len ← typed ((s.lookup (fixedIdent ident)).bind Local.asRange)
    let (xs, bytePtr) ← runReadItems (fun bytes => value (t.runReadNamed ns bytes)) t.runByteLen
      bytes len bytePtr
    pure ((asTokens ident, .other (.vec t) xs.val) :: s, bytePtr)
  | .delegated t, ns, ident, _, s, bytes, bytePtr => do
    let rest ← suffixFrom bytes bytePtr
    let x ← value (t.runReadNamed ns rest)
    let len ← t.runByteLen x
    pure ((asTokens ident, t.toLocal x) :: s, bytePtr + len)

/-- `from_bytes`, with the `byte_ptr` in the end. -/
def Ty.runReadNamed : (t : Ty) → t.Names → Bytes → Res (t.Val × Nat)
  -- the locals of a value alone are `this` and `this_fixed`
  | .lone v, ns, bytes => do
    let (f, _) ← v.readFixedPart (.static 0) bytes 0
    let (s, bytePtr) ← v.runLetVariable ns "this" (.static 0) (v.letFixed "this" f []) bytes
      v.fixedBytes
    let x ← typed ((s.lookup (asTokens "this")).bind v.ofLocal)
    pure (x, bytePtr)
  | .struct fs, (names, ns), bytes => do
    let f ← fs.readFixedPart 0 bytes
    let (s, bytePtr) ← fs.runLetVariable ns names 0 0 (fs.letFixed names 0 f []) bytes fs.fixedBytes
    let x ← fs.bindFields names 0 s
    pure (x, bytePtr)
  | .enum vs, ns, bytes =>
    if vs.length ≤ 1 then vs.runReadNamed ns vs.variantLen 0 bytes
    else do
      let variantId ← readByte bytes 0
      vs.runReadNamed ns vs.variantLen variantId.toNat bytes

def Fields.runLetVariable : (fs : Fields) → fs.Names → (Nat → String) → Nat → Nat → Scope →
    Bytes → Nat → Res (Scope × Nat)
  | .nil, _, _, _, _, s, _, bytePtr => pure (s, bytePtr)
  | .cons v fs, (n, ns), names, i, offset, s, bytes, bytePtr => do
    let (s, bytePtr) ← v.runLetVariable n (names i) (.static offset) s bytes bytePtr
    fs.runLetVariable ns names (i + 1) (offset + v.fixedBytes) s bytes bytePtr

def Variants.runReadNamed : (vs : Variants) → vs.Names → Nat → Nat → Bytes → Res (vs.Val × Nat)
  | .nil, _, _, _, _ => .err .invalidValue
  | .cons fs _, ((names, n), _), variantLen, 0, bytes => do
    let f ← fs.readFixedPart variantLen bytes
    let (s, bytePtr) ← fs.runLetVariable n names 0 variantLen (fs.letFixed names 0 f []) bytes
      (variantLen + fs.fixedBytes)
    let x ← fs.bindFields names 0 s
    pure (.inl x, bytePtr)
  | .cons _ vs, (_, ns), variantLen, variantId + 1, bytes => do
    let (x, bytePtr) ← vs.runReadNamed ns variantLen variantId bytes
    pure (.inr x, bytePtr)

end

/-- `from_bytes` -/
def Ty.fromBytesNamed (t : Ty) (ns : t.Names) (bytes : Bytes) : Res t.Val :=
  value (t.runReadNamed ns bytes)

/-! ## What the scopes inside come to -/

/-- The variable part of a field, read with its header. The types inside have names. -/
def Value.readWith : (v : Value) → v.Names → ByteOffset → v.Fixed → Bytes → Nat → Res (v.Val × Nat)
  | .emptyTuple, _, _, x, _, bytePtr | .bool, _, _, x, _, bytePtr
  | .number _, _, _, x, _, bytePtr => pure (x, bytePtr)
  | .string, _, _, len, bytes, bytePtr => readString len bytes bytePtr
  | .cow v, ns, o, _, bytes, bytePtr => do
    let (f, bytePtr) ← v.readFixedPart o bytes bytePtr
    let (x, bytePtr) ← v.readWith ns o f bytes bytePtr
    pure (Cow.owned x, bytePtr)
  | .option v, ns, _, isSome, bytes, bytePtr =>
    match isSome with
    | true => do
      let (f, bytePtr) ← v.readFixedPart .dynamic bytes bytePtr
      let (x, bytePtr) ← v.readWith ns .dynamic f bytes bytePtr
      pure (some x, bytePtr)
    | false => pure (none, bytePtr)
  | .array t length, ns, _, _, bytes, bytePtr =>
    runReadItems (fun bytes => value (t.runReadNamed ns bytes)) t.runByteLen bytes length bytePtr
  | .vec t, ns, _, len, bytes, bytePtr => do
    let (xs, bytePtr) ← runReadItems (fun bytes => value (t.runReadNamed ns bytes)) t.runByteLen
      bytes len bytePtr
    pure (xs.val, bytePtr)
  | .delegated t, ns, _, _, bytes, bytePtr => do
    let rest ← suffixFrom bytes bytePtr
    let x ← value (t.runReadNamed ns rest)
    let len ← t.runByteLen x
    pure (x, bytePtr + len)

/-- The code for the inside of a `Cow` or an `Option`. -/
def Value.readInnerWith (v : Value) (ns : v.Names) (o : ByteOffset) (bytes : Bytes)
    (bytePtr : Nat) : Res (v.Val × Nat) := do
  let (f, bytePtr) ← v.readFixedPart o bytes bytePtr
  v.readWith ns o f bytes bytePtr

theorem Value.readWith_cow (v : Value) (ns : v.Names) (o : ByteOffset) (f : Unit) (bytes : Bytes)
    (bytePtr : Nat) : Value.readWith (.cow v) ns o f bytes bytePtr =
      (v.readInnerWith ns o bytes bytePtr >>= fun (x, bytePtr) => pure (.owned x, bytePtr)) := by
  rw [readWith, readInnerWith, bind_assoc]

theorem Value.readInnerWith_cow (v : Value) (ns : v.Names) (o : ByteOffset) (bytes : Bytes)
    (bytePtr : Nat) : Value.readInnerWith (.cow v) ns o bytes bytePtr =
      (v.readInnerWith ns o bytes bytePtr >>= fun (x, bytePtr) => pure (.owned x, bytePtr)) :=
  v.readWith_cow ns o () bytes bytePtr

theorem Value.readWith_some (v : Value) (ns : v.Names) (o : ByteOffset) (bytes : Bytes)
    (bytePtr : Nat) : Value.readWith (.option v) ns o true bytes bytePtr =
      (v.readInnerWith ns .dynamic bytes bytePtr >>= fun (x, bytePtr) =>
        pure (some x, bytePtr)) := by
  rw [readWith, readInnerWith, bind_assoc]

/-- The variable part is read with the header that its name stands for, and then the name of the
field stands for the value. -/
def Value.RunLets (v : Value) (ns : v.Names) : Prop := ∀ ident o s bytes bytePtr,
  v.runLetVariable ns ident o s bytes bytePtr = (do
    let f ← v.header (s.lookup (fixedIdent ident))
    let (x, bytePtr) ← v.readWith ns o f bytes bytePtr
    pure ((asTokens ident, v.toLocal x) :: s, bytePtr))

theorem Value.runLetVariable_fixed {v : Value} (h : v.isFixed = true) (ns : v.Names)
    (ident : String) (o : ByteOffset) (s : Scope) (bytes : Bytes) (bytePtr : Nat) :
    v.runLetVariable ns ident o s bytes bytePtr = pure (s, bytePtr) := by
  cases v with
  | emptyTuple | bool | number n => rfl
  | _ => exact nomatch h

theorem Value.exists_readWith {v : Value} (h : v.isFixed = true) (f : v.Fixed) :
    ∃ x : v.Val, (∀ ident s, v.letFixed ident f s = (asTokens ident, v.toLocal x) :: s) ∧
      ∀ ns o bytes bytePtr, v.readWith ns o f bytes bytePtr = pure (x, bytePtr) := by
  cases v with
  | emptyTuple | bool | number n =>
    refine ⟨f, fun _ _ => rfl, fun ns o bytes bytePtr => ?_⟩
    rw [readWith]
  | _ => exact nomatch h

/-- What the fixed part binds is the value, or the header that the variable part needs. -/
theorem Value.RunLets.alone {v : Value} {ns : v.Names} (h : v.isFixed = false → v.RunLets ns)
    (ident : String) (o : ByteOffset) (f : v.Fixed) (s : Scope) (bytes : Bytes)
    (bytePtr : Nat) : (do
      let (inner, bytePtr) ← v.runLetVariable ns ident o (v.letFixed ident f s) bytes bytePtr
      let x ← typed ((inner.lookup (asTokens ident)).bind v.ofLocal)
      pure (x, bytePtr)) = v.readWith ns o f bytes bytePtr := by
  cases hfixed : v.isFixed with
  | true =>
    obtain ⟨x, hlet, hread⟩ := Value.exists_readWith hfixed f
    rw [runLetVariable_fixed hfixed, pure_bind, hread]
    simp only [hlet, Scope.lookup_cons_self, Option.bind_some, ofLocal_toLocal, typed_some,
      Outcome.bind_ok]
  | false =>
    rw [h hfixed, Value.header_letFixed hfixed, Outcome.bind_ok]
    simp only [bind_assoc, pure_bind, Scope.lookup_cons_self, Option.bind_some, ofLocal_toLocal,
      typed_some, Outcome.bind_ok]
    exact bind_pure _

theorem Value.runLets : (v : Value) → (ns : v.Names) → v.isFixed = false → v.RunLets ns
  | .emptyTuple, _, h | .bool, _, h | .number _, _, h => nomatch h
  | .string, _, _ => fun _ _ _ _ _ => rfl
  | .cow v, ns, _ => by
    intro ident o s bytes bytePtr
    rw [Value.header, pure_bind, Value.readWith, Value.runLetVariable]
    simp only [bind_assoc, pure_bind]
    refine bind_congr fun f => ?_
    have hinner := Value.RunLets.alone (v.runLets ns) "inner" o f.1 s bytes f.2
    rw [← hinner]
    simp only [bind_assoc, pure_bind]
    rfl
  | .option v, ns, _ => by
    intro ident o s bytes bytePtr
    rw [Value.header, Value.runLetVariable]
    refine bind_congr fun isSome => ?_
    cases isSome with
    | true =>
      simp only [Value.readWith, bind_assoc, pure_bind]
      refine bind_congr fun f => ?_
      have hinner := Value.RunLets.alone (v.runLets ns) "inner" .dynamic f.1 s bytes f.2
      rw [← hinner]
      simp only [bind_assoc, pure_bind]
      rfl
    | false => rfl
  | .array _ _, _, _ => fun _ _ _ _ _ => rfl
  | .vec t, ns, _ => by
    intro ident o s bytes bytePtr
    rw [Value.header, Value.runLetVariable]
    refine bind_congr fun len => ?_
    rw [Value.readWith, bind_assoc]
    rfl
  | .delegated t, ns, _ => by
    intro ident o s bytes bytePtr
    rw [Value.header, pure_bind, Value.readWith, Value.runLetVariable]
    simp only [bind_assoc, pure_bind]
    rfl

/-! ## What the names come to -/

/-- The variable parts of fields, read with their headers. -/
def Fields.readWith : (fs : Fields) → fs.Names → Nat → fs.Fixed → Bytes → Nat →
    Res (fs.Val × Nat)
  | .nil, _, _, _, _, bytePtr => pure ((), bytePtr)
  | .cons v fs, (n, ns), offset, (f, rest), bytes, bytePtr => do
    let (x, bytePtr) ← v.readWith n (.static offset) f bytes bytePtr
    let (xs, bytePtr) ← fs.readWith ns (offset + v.fixedBytes) rest bytes bytePtr
    pure ((x, xs), bytePtr)

/-- The headers that the names stand for when they are used. -/
def Fields.headers : (fs : Fields) → fs.Names → (Nat → String) → Nat → Nat → fs.Fixed → Scope →
    Bytes → Nat → Res fs.Fixed
  | .nil, _, _, _, _, _, _, _, _ => pure ()
  | .cons v fs, (n, ns), names, i, offset, (f, rest), s, bytes, bytePtr => do
    let f ← if v.isFixed then pure f else v.header (s.lookup (fixedIdent (names i)))
    let (s, bytePtr) ← v.runLetVariable n (names i) (.static offset) s bytes bytePtr
    let rest ← fs.headers ns names (i + 1) (offset + v.fixedBytes) rest s bytes bytePtr
    pure (f, rest)

/-- Fields are read with the headers that their names stand for. -/
theorem Fields.runLetVariable_ok : (fs : Fields) → (ns : fs.Names) → {names : Nat → String} →
    {k offset bytePtr r : Nat} → (f : fs.Fixed) → {s s' : Scope} → {bytes : Bytes} →
    fs.runLetVariable ns names k offset s bytes bytePtr = .ok (s', r) →
    ∃ g xs, fs.headers ns names k offset f s bytes bytePtr = .ok g ∧
      fs.readWith ns offset g bytes bytePtr = .ok (xs, r) ∧ s' = fs.letValues names k xs s
  | .nil, _, _, _, _, _, _, _, _, _, _, h => by
    cases h
    exact ⟨(), (), rfl, rfl, rfl⟩
  | .cons v fs, (n, ns), names, k, offset, bytePtr, r, (f, rest), s, s', bytes, h => by
    obtain ⟨⟨s₁, p⟩, hv, h⟩ := Outcome.bind_eq_ok.mp h
    obtain ⟨g, xs, hheaders, hread, rfl⟩ := fs.runLetVariable_ok ns rest h
    cases hfixed : v.isFixed with
    | true =>
      have hrun := hv
      rw [Value.runLetVariable_fixed hfixed] at hv
      cases hv
      obtain ⟨x, -, hx⟩ := Value.exists_readWith hfixed f
      refine ⟨(f, g), (x, xs), ?_, ?_, by rw [letValues, if_pos hfixed]⟩
      · rw [headers, if_pos hfixed, pure_bind]
        exact bind_eq_ok.mpr ⟨_, hrun, bind_eq_ok.mpr ⟨g, hheaders, rfl⟩⟩
      · exact bind_eq_ok.mpr ⟨_, hx n _ bytes bytePtr, bind_eq_ok.mpr ⟨_, hread, rfl⟩⟩
    | false =>
      have hrun := hv
      rw [v.runLets n hfixed] at hv
      obtain ⟨f', hf, hv⟩ := Outcome.bind_eq_ok.mp hv
      obtain ⟨⟨x, p'⟩, hx, hv⟩ := Outcome.bind_eq_ok.mp hv
      cases hv
      have hno : ¬ v.isFixed = true := by simp [hfixed]
      refine ⟨(f', g), (x, xs), ?_, ?_, by rw [letValues, if_neg hno]⟩
      · rw [headers, if_neg hno]
        exact bind_eq_ok.mpr ⟨f', hf, bind_eq_ok.mpr ⟨_, hrun, bind_eq_ok.mpr ⟨g, hheaders, rfl⟩⟩⟩
      · exact bind_eq_ok.mpr ⟨_, hx, bind_eq_ok.mpr ⟨_, hread, rfl⟩⟩

/-- The fields with variable parts have the same values. -/
def Fields.SameVariable : (fs : Fields) → fs.Val → fs.Val → Prop
  | .nil, _, _ => True
  | .cons v fs, (x, xs), (y, ys) => (v.isFixed = false → x = y) ∧ fs.SameVariable xs ys

theorem Fields.SameVariable.unknownLength_eq : {fs : Fields} → {xs ys : fs.Val} →
    fs.SameVariable xs ys → fs.unknownLength xs = fs.unknownLength ys
  | .nil, _, _, _ => rfl
  | .cons v _, (x, _), (y, _), h => by
    refine congrArg₂ (· + ·) ?_ (unknownLength_eq h.2)
    cases hfixed : v.isFixed with
    | true =>
      cases v with
      | emptyTuple | bool | number n => rfl
      | _ => exact nomatch hfixed
    | false => rw [h.1 hfixed]

theorem Fields.SameVariable.measured_iff : {fs : Fields} → {xs ys : fs.Val} →
    fs.SameVariable xs ys → (fs.Measured xs ↔ fs.Measured ys)
  | .nil, _, _, _ => Iff.rfl
  | .cons v _, (x, _), (y, _), h => by
    refine and_congr ?_ (measured_iff h.2)
    cases hfixed : v.isFixed with
    | true =>
      cases v with
      | emptyTuple | bool | number n => exact Iff.rfl
      | _ => exact nomatch hfixed
    | false => rw [h.1 hfixed]

/-- A field with a variable part gets the value that its name stands for. -/
theorem Fields.sameVariable_of_bind {names : Nat → String} {s : Scope} : (fs : Fields) →
    (ys : fs.Val) → (k : Nat) → {xs : fs.Val} →
    (∀ m w y, fs.nth? ys m = some ⟨w, y⟩ → w.isFixed = false →
      s.lookup (asTokens (names (k + m))) = some (w.toLocal y)) →
    fs.bindFields names k s = .ok xs → fs.SameVariable xs ys
  | .nil, _, _, _, _, _ => trivial
  | .cons v fs, (y, ys), k, xs, hvalues, h => by
    obtain ⟨x, hx, h⟩ := Outcome.bind_eq_ok.mp h
    obtain ⟨rest, hrest, h⟩ := Outcome.bind_eq_ok.mp h
    cases h
    refine ⟨fun hfixed => ?_, ?_⟩
    · have hlookup : s.lookup (asTokens (names k)) = some (v.toLocal y) :=
        hvalues 0 v y rfl hfixed
      rw [hlookup, Option.bind_some, Value.ofLocal_toLocal] at hx
      exact (Outcome.ok.inj hx).symm
    · refine sameVariable_of_bind fs ys (k + 1) (fun m w z hm hfixed => ?_) hrest
      rw [Nat.add_assoc, Nat.add_comm 1]
      exact hvalues (m + 1) w z hm hfixed

/-- `from_bytes` of a struct or a variant, from an offset on. -/
def Fields.runReadBoth (fs : Fields) (ns : fs.Names) (names : Nat → String) (offset : Nat)
    (bytes : Bytes) : Res (fs.Val × Nat) := do
  let f ← fs.readFixedPart offset bytes
  let (s, bytePtr) ← fs.runLetVariable ns names 0 offset (fs.letFixed names 0 f []) bytes
    (offset + fs.fixedBytes)
  let x ← fs.bindFields names 0 s
  pure (x, bytePtr)

/-- The fields are read with some headers, and those with variable parts get what is read. -/
theorem Fields.runReadBoth_ok {fs : Fields} {ns : fs.Names} {names : Nat → String} {offset r : Nat}
    {bytes : Bytes} {xs : fs.Val} (hd : fs.Distinct names)
    (h : fs.runReadBoth ns names offset bytes = .ok (xs, r)) :
    ∃ f g ys, fs.readFixedPart offset bytes = .ok f ∧
      fs.headers ns names 0 offset f (fs.letFixed names 0 f []) bytes (offset + fs.fixedBytes) =
        .ok g ∧
      fs.readWith ns offset g bytes (offset + fs.fixedBytes) = .ok (ys, r) ∧
      fs.SameVariable xs ys := by
  obtain ⟨f, hf, h⟩ := Outcome.bind_eq_ok.mp h
  obtain ⟨⟨s, p⟩, hrun, h⟩ := Outcome.bind_eq_ok.mp h
  obtain ⟨x, hbind, h⟩ := Outcome.bind_eq_ok.mp h
  cases h
  obtain ⟨g, ys, hheaders, hread, rfl⟩ := fs.runLetVariable_ok ns f hrun
  refine ⟨f, g, ys, hf, hheaders, hread,
    fs.sameVariable_of_bind ys 0 (fun m w y hm hfixed => ?_) hbind⟩
  exact letValues_value hd fs ys 0 _ (fun m => by rw [Nat.zero_add]) hm hfixed

theorem Ty.runReadNamed_struct (fs : Fields) (names : Nat → String) (ns : fs.Names)
    (bytes : Bytes) : (Ty.struct fs).runReadNamed (names, ns) bytes =
      fs.runReadBoth ns names 0 bytes := by
  rw [runReadNamed, Fields.runReadBoth, Nat.zero_add]

theorem Ty.runReadNamed_lone (v : Value) (ns : v.Names) (bytes : Bytes) :
    (Ty.lone v).runReadNamed ns bytes = (do
      let (f, _) ← v.readFixedPart (.static 0) bytes 0
      v.readWith ns (.static 0) f bytes v.fixedBytes) := by
  rw [runReadNamed]
  exact bind_congr fun f => Value.RunLets.alone (v.runLets ns) "this" _ f.1 [] bytes _

theorem Variants.runReadNamed_zero (fs : Fields) (vs : Variants) (names : Nat → String)
    (n : fs.Names) (ns : vs.Names) (variantLen : Nat) (bytes : Bytes) :
    (Variants.cons fs vs).runReadNamed ((names, n), ns) variantLen 0 bytes =
      (fs.runReadBoth n names variantLen bytes >>= fun (x, p) => pure (.inl x, p)) := by
  rw [runReadNamed, Fields.runReadBoth]
  simp only [bind_assoc, pure_bind]

/-! ## Without captures -/

/-- The fields read, with their values bound by their names. -/
theorem Fields.bind_letValues {fs : Fields} {names : Nat → String} (h : fs.Apart names)
    {f : fs.Fixed} {offset bytePtr : Nat} {bytes : Bytes} {β : Type} (g : fs.Val → Nat → Res β) :
    (do
      let (s, bytePtr) ← fs.runReadVariablePart offset f bytes bytePtr >>= fun (xs, bytePtr) =>
        pure (fs.letValues names 0 xs (fs.letFixed names 0 f []), bytePtr)
      let x ← fs.bindFields names 0 s
      g x bytePtr) = (do
      let (x, bytePtr) ← fs.runReadVariablePart offset f bytes bytePtr
      g x bytePtr) := by
  rw [bind_assoc]
  cases hrun : fs.runReadVariablePart offset f bytes bytePtr with
  | ok y =>
    have hread := ((fs.runReadVariablePart_runs offset f bytes bytePtr).of_eq_ok hrun).1
    have hbind := bindFields_letValues h.1 h.2 (fs.fits_of_read f hread)
    simp only [Outcome.bind_ok, pure_bind, hbind]
  | err | panic | hang => rfl

mutual

theorem Value.readWith_eq : (v : Value) → (ns : v.Names) → v.Uncaptured ns → ∀ o f bytes bytePtr,
    v.readWith ns o f bytes bytePtr = v.runReadVariablePart o f bytes bytePtr
  | .emptyTuple, _, _, _, _, _, _ | .bool, _, _, _, _, _, _ | .number _, _, _, _, _, _, _
  | .string, _, _, _, _, _, _ | .option _, _, _, _, false, _, _ => rfl
  | .cow v, ns, h, o, _, bytes, _ => by
    rw [Value.readWith, Value.runReadVariablePart]
    exact bind_congr fun f => congrArg (· >>= _) (v.readWith_eq ns h o f.1 bytes f.2)
  | .option v, ns, h, _, true, bytes, _ => by
    rw [Value.readWith, Value.runReadVariablePart]
    exact bind_congr fun f => congrArg (· >>= _) (v.readWith_eq ns h .dynamic f.1 bytes f.2)
  | .array t length, ns, h, _, _, bytes, bytePtr => by
    rw [Value.readWith, Value.runReadVariablePart]
    rcases h with rfl | h
    · rfl
    · rw [funext (t.runReadNamed_eq ns h)]
  | .vec t, ns, h, _, len, bytes, bytePtr => by
    rw [Value.readWith, Value.runReadVariablePart, funext (t.runReadNamed_eq ns h)]
  | .delegated t, ns, h, _, _, bytes, bytePtr => by
    rw [Value.readWith, Value.runReadVariablePart, funext (t.runReadNamed_eq ns h)]

/-- Without captures the names do not matter. -/
theorem Ty.runReadNamed_eq : (t : Ty) → (ns : t.Names) → t.Uncaptured ns → ∀ bytes,
    t.runReadNamed ns bytes = t.runRead bytes
  | .lone v, ns, h, bytes => by
    rw [Ty.runReadNamed_lone, Ty.runRead]
    exact bind_congr fun f => v.readWith_eq ns h _ f.1 bytes _
  | .struct fs, (names, ns), ⟨hapart, h⟩, bytes => by
    rw [Ty.runReadNamed, Ty.runRead]
    refine bind_congr fun f => ?_
    have hsuffix : ∀ m, fs.get? (0 + m) = fs.get? m := fun m => by rw [Nat.zero_add]
    rw [fs.runLetVariable_eq ns h hapart.2 bytes f 0 0 _ _ hsuffix
      (headersRead_letFixed hapart.1 hapart.2 fs f 0 [] hsuffix)]
    exact (Fields.bind_letValues hapart fun x bytePtr => pure (x, bytePtr)).trans (bind_pure _)
  | .enum vs, ns, h, bytes => by
    rw [Ty.runReadNamed, Ty.runRead]
    split
    · exact vs.runReadNamed_eq ns h _ _ bytes
    · exact bind_congr fun variantId => vs.runReadNamed_eq ns h _ _ bytes

/-- The variable parts are read with their own headers. -/
theorem Fields.runLetVariable_eq : (fs : Fields) → (ns : fs.Names) → fs.Uncaptured ns →
    ∀ {all : Fields} {names : Nat → String}, (∀ i j, ¬ all.Captures names i j) → ∀ bytes f k offset
    s bytePtr, (∀ m, all.get? (k + m) = fs.get? m) → fs.HeadersRead names k f s →
    fs.runLetVariable ns names k offset s bytes bytePtr =
      (fs.runReadVariablePart offset f bytes bytePtr >>= fun (xs, bytePtr) =>
        pure (fs.letValues names k xs s, bytePtr))
  | .nil, _, _, _, _, _, _, _, _, _, _, _, _, _ => rfl
  | .cons v fs, (n, ns), h, all, names, hnone, bytes, (f, rest), k, offset, s, bytePtr, hsuffix,
      hread => by
    have hsuffix' := Fields.get?_suffix hsuffix
    have hrest := fs.runLetVariable_eq ns h.2 hnone bytes rest (k + 1) (offset + v.fixedBytes)
    rw [Fields.runLetVariable, Fields.runReadVariablePart, ← v.readWith_eq n h.1]
    cases hfixed : v.isFixed with
    | true =>
      obtain ⟨x, -, hx⟩ := Value.exists_readWith hfixed f
      rw [Value.runLetVariable_fixed hfixed, hx]
      simp only [pure_bind, bind_assoc, Fields.letValues, hfixed, if_true]
      exact hrest s bytePtr hsuffix' hread.2
    | false =>
      rw [v.runLets n hfixed, hread.1 hfixed]
      simp only [Outcome.bind_ok, pure_bind, bind_assoc, Fields.letValues, hfixed,
        Bool.false_eq_true, if_false]
      refine bind_congr fun r => ?_
      have hheaders := headersRead_let hnone (hsuffix 0) (v.toLocal r.1) s fs rest (k + 1) hsuffix'
        (Nat.lt_succ_self k) hread.2
      exact hrest _ r.2 hsuffix' hheaders

theorem Variants.runReadNamed_eq : (vs : Variants) → (ns : vs.Names) → vs.Uncaptured ns →
    ∀ variantLen variantId bytes,
    vs.runReadNamed ns variantLen variantId bytes = vs.runRead variantLen variantId bytes
  | .nil, _, _, _, _, _ => rfl
  | .cons fs vs, ((names, n), _), ⟨⟨hapart, h⟩, _⟩, variantLen, 0, bytes => by
    rw [Variants.runReadNamed, Variants.runRead]
    refine bind_congr fun f => ?_
    have hsuffix : ∀ m, fs.get? (0 + m) = fs.get? m := fun m => by rw [Nat.zero_add]
    rw [fs.runLetVariable_eq n h hapart.2 bytes f 0 variantLen _ _ hsuffix
      (headersRead_letFixed hapart.1 hapart.2 fs f 0 [] hsuffix)]
    exact Fields.bind_letValues hapart fun x p => pure ((Sum.inl x : fs.Val ⊕ vs.Val), p)
  | .cons _ vs, (_, ns), h, variantLen, variantId + 1, bytes => by
    rw [Variants.runReadNamed, Variants.runRead, vs.runReadNamed_eq ns h.2]

end

/-- A measured value that the codec reads is read by the code, whatever the fields are called. -/
theorem Ty.fromBytesNamed_of_read {t : Ty} {bytes : Bytes} {x : t.Val} {r : Nat}
    (hread : t.read bytes = .ok (x, r)) (hmeasured : t.Measured x) {ns : t.Names}
    (hns : t.Uncaptured ns) : t.fromBytesNamed ns bytes = .ok x := by
  rw [Ty.fromBytesNamed, t.runReadNamed_eq ns hns]
  exact value_ok (((t.runRead_runs bytes).ok _ hread).ok (t.stepped_of_measured x hmeasured))

/-! ## Names without captures -/

/-- `a`, `aa`, `aaa` and so on. -/
def plainName (i : Nat) : String := String.ofList (List.replicate (i + 1) 'a')

mutual

def Value.anyNames : (v : Value) → v.Names
  | .emptyTuple | .bool | .number _ | .string => ()
  | .cow v | .option v => v.anyNames
  | .array t _ | .vec t | .delegated t => t.anyNames

/-- Names that every type may have. -/
def Ty.anyNames : (t : Ty) → t.Names
  | .lone v => v.anyNames
  | .struct fs => (plainName, fs.anyNames)
  | .enum vs => vs.anyNames

def Fields.anyNames : (fs : Fields) → fs.Names
  | .nil => ()
  | .cons v fs => (v.anyNames, fs.anyNames)

def Variants.anyNames : (vs : Variants) → vs.Names
  | .nil => ()
  | .cons fs vs => ((plainName, fs.anyNames), vs.anyNames)

end

theorem Fields.apart_plain (fs : Fields) : fs.Apart plainName := by
  constructor
  · intro i j v w _ _ h
    have hlen := congrArg (fun s => s.toList.length) h
    simpa [plainName] using hlen
  · rintro i j ⟨v, w, -, -, -, h, -⟩
    have hlist : List.replicate (j + 1) 'a' = List.replicate (i + 1) 'a' ++ "_fixed".toList := by
      have hlist := congrArg String.toList h
      simpa [plainName] using hlist
    have hmem : 'd' ∈ List.replicate (j + 1) 'a' := by
      rw [hlist]
      exact List.mem_append_right _ (by decide)
    exact absurd (List.eq_of_mem_replicate hmem) (by decide)

mutual

theorem Value.uncaptured_any : (v : Value) → v.Uncaptured v.anyNames
  | .emptyTuple | .bool | .number _ | .string => trivial
  | .cow v | .option v => v.uncaptured_any
  | .array t _ => .inr t.uncaptured_any
  | .vec t | .delegated t => t.uncaptured_any

theorem Ty.uncaptured_any : (t : Ty) → t.Uncaptured t.anyNames
  | .lone v => v.uncaptured_any
  | .struct fs => ⟨fs.apart_plain, fs.uncaptured_any⟩
  | .enum vs => vs.uncaptured_any

theorem Fields.uncaptured_any : (fs : Fields) → fs.Uncaptured fs.anyNames
  | .nil => trivial
  | .cons v fs => ⟨v.uncaptured_any, fs.uncaptured_any⟩

theorem Variants.uncaptured_any : (vs : Variants) → vs.Uncaptured vs.anyNames
  | .nil => trivial
  | .cons fs vs => ⟨⟨fs.apart_plain, fs.uncaptured_any⟩, vs.uncaptured_any⟩

end

end MiniUdp.Derive
