import MiniUdp.Derive.Encode

/-!
# Reading an encoding

The code that reads a type gives a value back from its encoding, whatever
follows, as long as every length fits its header (`Ty.reads`). A `Cow` is read
as an owned one (`owned`).
-/

namespace MiniUdp.Derive

open Utf8

/-! ## Owned values, short values -/

mutual

/-- The value with every `Cow` owned. -/
def Value.owned : (v : Value) → v.Val → v.Val
  | .emptyTuple, x | .bool, x | .number _, x | .string, x => x
  | .cow v, x => .owned (v.owned x.get)
  | .option v, some x => some (v.owned x)
  | .option _, none => none
  | .array t _, xs => ⟨xs.val.map t.owned, (List.length_map _).trans xs.property⟩
  | .vec t, xs => xs.map t.owned
  | .delegated t, x => t.owned x

def Ty.owned : (t : Ty) → t.Val → t.Val
  | .lone v, x => v.owned x
  | .struct fs, x => fs.owned x
  | .enum vs, x => vs.owned x

def Fields.owned : (fs : Fields) → fs.Val → fs.Val
  | .nil, _ => ()
  | .cons v fs, (x, xs) => (v.owned x, fs.owned xs)

def Variants.owned : (vs : Variants) → vs.Val → vs.Val
  | .nil, x => nomatch x
  | .cons fs _, .inl x => .inl (fs.owned x)
  | .cons _ vs, .inr x => .inr (vs.owned x)

end

mutual

/-- Strings and vectors have fewer than 2^32 elements. -/
def Value.Small : (v : Value) → v.Val → Prop
  | .emptyTuple, _ | .bool, _ | .number _, _ | .option _, none => True
  | .string, s => (asBytes s).length < 2 ^ 32
  | .cow v, x => v.Small x.get
  | .option v, some x => v.Small x
  | .array t _, xs => ∀ x ∈ xs.val, t.Small x
  | .vec t, xs => xs.length < 2 ^ 32 ∧ ∀ x ∈ xs, t.Small x
  | .delegated t, x => t.Small x

def Ty.Small : (t : Ty) → t.Val → Prop
  | .lone v, x => v.Small x
  | .struct fs, x => fs.Small x
  | .enum vs, x => vs.Small x

def Fields.Small : (fs : Fields) → fs.Val → Prop
  | .nil, _ => True
  | .cons v fs, (x, xs) => v.Small x ∧ fs.Small xs

def Variants.Small : (vs : Variants) → vs.Val → Prop
  | .nil, x => nomatch x
  | .cons fs _, .inl x => fs.Small x
  | .cons _ vs, .inr x => vs.Small x

end

mutual

theorem Value.encodeFixed_owned : (v : Value) → (x : v.Val) →
    v.encodeFixed (v.owned x) = v.encodeFixed x
  | .emptyTuple, _ | .bool, _ | .number _, _ | .string, _ | .option _, some _
  | .option _, none | .array _ _, _ | .delegated _, _ => rfl
  | .cow v, x => v.encodeFixed_owned x.get
  | .vec t, _ => congrArg lenBytes (List.length_map t.owned)

theorem Value.encodeVariable_owned : (v : Value) → (x : v.Val) →
    v.encodeVariable (v.owned x) = v.encodeVariable x
  | .emptyTuple, _ | .bool, _ | .number _, _ | .string, _ | .option _, none => rfl
  | .cow v, x => v.encodeVariable_owned x.get
  | .option v, some x => congrArg₂ (· ++ ·) (v.encodeFixed_owned x) (v.encodeVariable_owned x)
  | .array t _, xs => by
    show (xs.val.map t.owned).flatMap t.encode = _
    rw [List.flatMap_map]
    exact List.flatMap_congr fun x _ => t.encode_owned x
  | .vec t, xs => by
    show (xs.map t.owned).flatMap t.encode = _
    rw [List.flatMap_map]
    exact List.flatMap_congr fun x _ => t.encode_owned x
  | .delegated t, x => t.encode_owned x

theorem Ty.encode_owned : (t : Ty) → (x : t.Val) → t.encode (t.owned x) = t.encode x
  | .lone v, x => congrArg₂ (· ++ ·) (v.encodeFixed_owned x) (v.encodeVariable_owned x)
  | .struct fs, x => congrArg₂ (· ++ ·) (fs.encodeFixed_owned x) (fs.encodeVariable_owned x)
  | .enum vs, x => by
    rw [Ty.owned, Ty.encode, vs.variantId_owned, vs.encode_owned, Ty.encode]

theorem Fields.encodeFixed_owned : (fs : Fields) → (x : fs.Val) →
    fs.encodeFixed (fs.owned x) = fs.encodeFixed x
  | .nil, _ => rfl
  | .cons v fs, (x, xs) => congrArg₂ (· ++ ·) (v.encodeFixed_owned x) (fs.encodeFixed_owned xs)

theorem Fields.encodeVariable_owned : (fs : Fields) → (x : fs.Val) →
    fs.encodeVariable (fs.owned x) = fs.encodeVariable x
  | .nil, _ => rfl
  | .cons v fs, (x, xs) =>
    congrArg₂ (· ++ ·) (v.encodeVariable_owned x) (fs.encodeVariable_owned xs)

theorem Variants.variantId_owned : (vs : Variants) → (x : vs.Val) →
    vs.variantId (vs.owned x) = vs.variantId x
  | .nil, x => nomatch x
  | .cons _ _, .inl _ => rfl
  | .cons _ vs, .inr x => congrArg (· + 1) (vs.variantId_owned x)

theorem Variants.encode_owned : (vs : Variants) → (x : vs.Val) →
    vs.encode (vs.owned x) = vs.encode x
  | .nil, x => nomatch x
  | .cons fs _, .inl x =>
    congrArg₂ (· ++ ·) (fs.encodeFixed_owned x) (fs.encodeVariable_owned x)
  | .cons _ vs, .inr x => vs.encode_owned x

end

theorem Ty.byteLen_owned (t : Ty) (x : t.Val) : t.byteLen (t.owned x) = t.byteLen x := by
  rw [← t.length_encode, t.encode_owned, t.length_encode]

/-! ## Reading a segment -/

section Segments

variable {bytes bs : Bytes} {a : Nat}

theorem readRange_segment (h : Segment bytes a bs) : readRange bytes a bs.length = .ok bs := by
  obtain ⟨pre, post, rfl, hpre⟩ := h
  exact readRange_append hpre rfl

theorem readByte_segment {byte : UInt8} (h : Segment bytes a [byte]) :
    readByte bytes a = .ok byte := by
  have hget := h.getElem? (i := 0) (by simp)
  rw [Nat.add_zero] at hget
  rw [readByte, hget]
  rfl

theorem suffixFrom_segment (h : Segment bytes a bs) :
    ∃ rest, suffixFrom bytes a = .ok (bs ++ rest) := by
  obtain ⟨pre, post, rfl, hpre⟩ := h
  exact ⟨post, by rw [List.append_assoc, suffixFrom_append pre (bs ++ post) hpre]⟩

theorem sliceOf_segment (h : Segment bytes a bs) : sliceOf bytes a (a + bs.length) = .ok bs := by
  have hle := h.le_length
  obtain ⟨pre, post, rfl, rfl⟩ := h
  rw [sliceOf, if_pos ⟨by omega, hle⟩, List.append_assoc, List.take_length_add_append,
    List.take_left, List.drop_left]

theorem readFlag_segment {b : Bool} (h : Segment bytes a [flag b]) :
    readFlag bytes a = .ok b := by
  rw [readFlag, readByte_segment h, Outcome.bind_ok, flag_beq_one]
  rfl

/-- A header that is too small holds the length modulo 2^32. -/
theorem readLen_segment {len : Nat} (h : Segment bytes a (lenBytes len)) :
    readLen bytes a = .ok (len % 2 ^ 32) := by
  have hread := readRange_segment h
  rw [length_lenBytes] at hread
  have hlt : (UInt32.ofNat len).toNat < 256 ^ 4 := (UInt32.ofNat len).toNat_lt
  rw [readLen, hread, Outcome.bind_ok, lenBytes, fromLe_toLe_of_lt hlt]
  rfl

theorem readString_segment {s : String} (h : Segment bytes a (asBytes s)) :
    readString (asBytes s).length bytes a = .ok (s, a + (asBytes s).length) := by
  rw [readString, sliceOf_segment h, Outcome.bind_ok, fromUtf8Lossy_asBytes]
  rfl

theorem Number.fromLeBytes_toLeBytes (n : Number) (x : BitVec (8 * n.bytes)) :
    n.fromLeBytes (n.toLeBytes x) = x := by
  have hlt : x.toNat < 256 ^ n.bytes := by
    have := x.isLt
    rwa [pow_mul] at this
  rw [fromLeBytes, toLeBytes, fromLe_toLe_of_lt hlt, BitVec.ofNat_toNat, BitVec.setWidth_eq]

theorem Number.read_segment {n : Number} {x : BitVec (8 * n.bytes)}
    (h : Segment bytes a (n.toLeBytes x)) : n.read bytes a = .ok x := by
  have hlen : (n.toLeBytes x).length = n.bytes := length_toLe n.bytes _
  rw [read]
  split
  · rename_i hone
    obtain ⟨byte, hbyte⟩ := List.length_eq_one_iff.mp (hlen.trans hone)
    rw [hbyte] at h
    rw [readByte_segment h, Outcome.bind_ok, ← hbyte, n.fromLeBytes_toLeBytes]
    rfl
  · have hread := readRange_segment h
    rw [hlen] at hread
    rw [hread, Outcome.bind_ok, n.fromLeBytes_toLeBytes]
    rfl

end Segments

/-! ## Reading an encoding -/

theorem readItems_segment {α : Type} {fromBytes : Bytes → Res α} {byteLen : α → Nat}
    {encode : α → Bytes} {owned : α → α} {bytes : Bytes} {xs : List α} {bytePtr : Nat}
    (hread : ∀ x ∈ xs, ∀ rest, fromBytes (encode x ++ rest) = .ok (owned x))
    (hlen : ∀ x ∈ xs, byteLen (owned x) = (encode x).length)
    (hseg : Segment bytes bytePtr (xs.flatMap encode)) :
    readItems fromBytes byteLen bytes xs.length bytePtr =
      .ok (⟨xs.map owned, List.length_map _⟩, bytePtr + (xs.flatMap encode).length) := by
  induction xs generalizing bytePtr with
  | nil => rfl
  | cons x xs ih =>
    rw [List.flatMap_cons] at hseg
    have hx := hlen x List.mem_cons_self
    obtain ⟨rest, hrest⟩ := suffixFrom_segment hseg.left
    have htail := ih (fun y hy => hread y (List.mem_cons_of_mem x hy))
      (fun y hy => hlen y (List.mem_cons_of_mem x hy)) hseg.right
    show readItems fromBytes byteLen bytes (xs.length + 1) bytePtr = _
    rw [readItems, hrest, Outcome.bind_ok, hread x List.mem_cons_self, Outcome.bind_ok, hx, htail,
      Outcome.bind_ok, List.flatMap_cons, List.length_append, ← Nat.add_assoc]
    rfl

/-- What `read_fixed_part` finds in an encoding. -/
def Value.fixedOf : (v : Value) → v.Val → v.Fixed
  | .emptyTuple, _ | .cow _, _ | .array _ _, _ | .delegated _, _ => ()
  | .bool, b => b
  | .option _, x => x.isSome
  | .number _, x => x
  | .string, s => (asBytes s).length % 2 ^ 32
  | .vec _, xs => xs.length % 2 ^ 32

theorem Value.readFixedPart_segment {o : ByteOffset} {bytes : Bytes} {bytePtr : Nat} :
    (v : Value) → (x : v.Val) → Segment bytes (o.get bytePtr) (v.encodeFixed x) →
    v.readFixedPart o bytes bytePtr =
      .ok (v.fixedOf x, if v.isCow then bytePtr else o.next v.fixedBytes bytePtr)
  | .emptyTuple, _, _ | .array _ _, _, _ | .delegated _, _, _ => by cases o <;> rfl
  | .cow _, _, _ => rfl
  | .bool, _, h | .option _, _, h => by
    rw [readFixedPart, readFlag_segment h, Outcome.bind_ok]
    rfl
  | .number n, _, h => by
    rw [readFixedPart, Number.read_segment h, Outcome.bind_ok]
    rfl
  | .string, _, h | .vec _, _, h => by
    rw [readFixedPart, readLen_segment h, Outcome.bind_ok]
    rfl

/-- The code for the inside of a `Cow` or an `Option`. -/
def Value.readInner (v : Value) (o : ByteOffset) (bytes : Bytes) (bytePtr : Nat) :
    Res (v.Val × Nat) := do
  let (f, bytePtr) ← v.readFixedPart o bytes bytePtr
  v.readVariablePart o f bytes bytePtr

/-- What the code for a field reads from its encoding, at a fixed offset and in an `Option`. -/
structure Value.Reads (v : Value) (x : v.Val) : Prop where
  static : ∀ bytes offset bytePtr, Segment bytes offset (v.encodeFixed x) →
    Segment bytes bytePtr (v.encodeVariable x) →
    v.readVariablePart (.static offset) (v.fixedOf x) bytes bytePtr =
      .ok (v.owned x, bytePtr + (v.encodeVariable x).length)
  dynamic : ∀ bytes bytePtr, Segment bytes bytePtr (v.encodeFixed x ++ v.encodeVariable x) →
    v.readInner .dynamic bytes bytePtr =
      .ok (v.owned x, bytePtr + (v.encodeFixed x ++ v.encodeVariable x).length)

/-- A field that is no `Cow` has its variable part at `byte_ptr`. -/
theorem Value.Reads.of_bytePtr {v : Value} {x : v.Val} (hcow : v.isCow = false)
    (h : ∀ o bytes bytePtr, Segment bytes bytePtr (v.encodeVariable x) →
      v.readVariablePart o (v.fixedOf x) bytes bytePtr =
        .ok (v.owned x, bytePtr + (v.encodeVariable x).length)) : v.Reads x where
  static bytes offset bytePtr _ hvariable := h (.static offset) bytes bytePtr hvariable
  dynamic bytes bytePtr hseg := by
    have hright := hseg.right
    rw [v.length_encodeFixed] at hright
    rw [readInner, v.readFixedPart_segment (o := .dynamic) x hseg.left, Outcome.bind_ok, hcow,
      if_neg Bool.false_ne_true]
    rw [List.length_append, v.length_encodeFixed, ← Nat.add_assoc]
    exact h .dynamic bytes _ hright

theorem Value.readVariablePart_cow (v : Value) (o : ByteOffset) (f : Unit) (bytes : Bytes)
    (bytePtr : Nat) : Value.readVariablePart (.cow v) o f bytes bytePtr =
      (v.readInner o bytes bytePtr >>= fun (x, bytePtr) => pure (.owned x, bytePtr)) := by
  rw [readVariablePart, readInner, bind_assoc]

theorem Value.readInner_cow (v : Value) (o : ByteOffset) (bytes : Bytes) (bytePtr : Nat) :
    Value.readInner (.cow v) o bytes bytePtr =
      (v.readInner o bytes bytePtr >>= fun (x, bytePtr) => pure (.owned x, bytePtr)) :=
  v.readVariablePart_cow o () bytes bytePtr

theorem Value.readVariablePart_option (v : Value) (o : ByteOffset) (isSome : Bool) (bytes : Bytes)
    (bytePtr : Nat) : Value.readVariablePart (.option v) o isSome bytes bytePtr =
      if isSome then
        (v.readInner .dynamic bytes bytePtr >>= fun (x, bytePtr) => pure (some x, bytePtr))
      else pure (none, bytePtr) := by
  cases isSome with
  | true =>
    rw [readVariablePart, readInner, if_pos rfl, bind_assoc]
  | false => rfl

theorem Value.readInner_static {v : Value} {x : v.Val} {bytes : Bytes} {offset : Nat}
    (h : Segment bytes offset (v.encodeFixed x)) (bytePtr : Nat) :
    v.readInner (.static offset) bytes bytePtr =
      v.readVariablePart (.static offset) (v.fixedOf x) bytes bytePtr := by
  have hptr : (if v.isCow then bytePtr else (ByteOffset.static offset).next v.fixedBytes bytePtr) =
      bytePtr := ite_self bytePtr
  simp only [readInner, v.readFixedPart_segment (o := .static offset) x h, Outcome.bind_ok, hptr]

theorem Value.Reads.cow {v : Value} {x : Cow v.Val} (h : v.Reads x.get) :
    Value.Reads (.cow v) x where
  static bytes offset bytePtr hfixed hvariable := by
    rw [readVariablePart_cow, readInner_static (x := x.get) hfixed,
      h.static bytes offset bytePtr hfixed hvariable]
    rfl
  dynamic bytes bytePtr hseg := by
    rw [readInner_cow, h.dynamic bytes bytePtr hseg]
    rfl

theorem Value.Reads.some {v : Value} {x : v.Val} (h : v.Reads x) :
    Value.Reads (.option v) (Option.some x) :=
  .of_bytePtr rfl fun _ bytes bytePtr hseg => by
    rw [readVariablePart_option]
    exact (if_pos rfl).trans (by rw [h.dynamic bytes bytePtr hseg]; rfl)

theorem value_ok {α : Type} {r : Res (α × Nat)} {x : α} {bytePtr : Nat} (h : r = .ok (x, bytePtr)) :
    value r = .ok x := by
  rw [h]
  rfl

theorem Ty.readItems_segment {t : Ty} {xs : List t.Val}
    (h : ∀ x ∈ xs, ∀ rest, t.read (t.encode x ++ rest) = .ok (t.owned x, t.byteLen x))
    {bytes : Bytes} {bytePtr : Nat} (hseg : Segment bytes bytePtr (xs.flatMap t.encode)) :
    readItems (fun bytes => value (t.read bytes)) t.byteLen bytes xs.length bytePtr =
      .ok (⟨xs.map t.owned, List.length_map _⟩, bytePtr + (xs.flatMap t.encode).length) :=
  Derive.readItems_segment (fun x hx rest => value_ok (h x hx rest))
    (fun x _ => by rw [t.byteLen_owned, t.length_encode]) hseg

theorem Value.Reads.delegated {t : Ty} {x : t.Val}
    (h : ∀ rest, t.read (t.encode x ++ rest) = .ok (t.owned x, t.byteLen x)) :
    Value.Reads (.delegated t) x :=
  .of_bytePtr rfl fun _ bytes bytePtr hseg => by
    obtain ⟨rest, hrest⟩ := suffixFrom_segment hseg
    have hread : value (t.read ((Value.delegated t).encodeVariable x ++ rest)) = .ok (t.owned x) :=
      value_ok (h rest)
    rw [readVariablePart, hrest, Outcome.bind_ok, hread, Outcome.bind_ok, t.byteLen_owned,
      ← t.length_encode]
    rfl

/-! ### Fields in a row -/

def Fields.fixedOf : (fs : Fields) → fs.Val → fs.Fixed
  | .nil, _ => ()
  | .cons v fs, (x, xs) => (v.fixedOf x, fs.fixedOf xs)

theorem Fields.readFixedPart_segment {bytes : Bytes} : (fs : Fields) → (x : fs.Val) →
    (offset : Nat) → Segment bytes offset (fs.encodeFixed x) →
    fs.readFixedPart offset bytes = .ok (fs.fixedOf x)
  | .nil, _, _, _ => rfl
  | .cons v fs, (x, xs), offset, hseg => by
    have hright := hseg.right
    rw [v.length_encodeFixed] at hright
    rw [readFixedPart, v.readFixedPart_segment (o := .static offset) x hseg.left, Outcome.bind_ok,
      fs.readFixedPart_segment xs _ hright]
    rfl

def Fields.Reads (fs : Fields) (x : fs.Val) : Prop :=
  ∀ bytes offset bytePtr, Segment bytes offset (fs.encodeFixed x) →
    Segment bytes bytePtr (fs.encodeVariable x) →
    fs.readVariablePart offset (fs.fixedOf x) bytes bytePtr =
      .ok (fs.owned x, bytePtr + (fs.encodeVariable x).length)

theorem Fields.Reads.cons {v : Value} {fs : Fields} {x : v.Val} {xs : fs.Val} (hv : v.Reads x)
    (hfs : fs.Reads xs) : Fields.Reads (.cons v fs) (x, xs) := by
  intro bytes offset bytePtr hfixed hvariable
  have hright := hfixed.right
  rw [v.length_encodeFixed] at hright
  simp only [fixedOf, readVariablePart, hv.static bytes offset bytePtr hfixed.left hvariable.left,
    Outcome.bind_ok, hfs bytes _ _ hright hvariable.right, encodeVariable, List.length_append,
    Nat.add_assoc]
  rfl

/-- Both parts of the fields, one after the other. -/
def Fields.readBoth (fs : Fields) (offset : Nat) (bytes : Bytes) : Res (fs.Val × Nat) := do
  let f ← fs.readFixedPart offset bytes
  fs.readVariablePart offset f bytes (offset + fs.fixedBytes)

/-- A value alone is read as the only field of a struct. -/
theorem Ty.readBoth_single (v : Value) (bytes : Bytes) :
    (Fields.cons v .nil).readBoth 0 bytes =
      ((Ty.lone v).read bytes >>= fun (x, bytePtr) => pure ((x, ()), bytePtr)) := by
  simp only [Fields.readBoth, Fields.readFixedPart, Fields.readVariablePart, Fields.fixedBytes,
    Ty.read, bind_assoc, pure_bind, Nat.zero_add, Nat.add_zero]

theorem Variants.read_zero (fs : Fields) (vs : Variants) (variantLen : Nat) (bytes : Bytes) :
    Variants.read (.cons fs vs) variantLen 0 bytes =
      (fs.readBoth variantLen bytes >>= fun (x, bytePtr) => pure (.inl x, bytePtr)) := by
  rw [read, Fields.readBoth, bind_assoc]

theorem Ty.read_struct (fs : Fields) (bytes : Bytes) :
    (Ty.struct fs).read bytes = fs.readBoth 0 bytes := by
  rw [read, Fields.readBoth, Nat.zero_add]

theorem Fields.Reads.both {fs : Fields} {x : fs.Val} (h : fs.Reads x) {bytes : Bytes}
    {offset : Nat} (hseg : Segment bytes offset (fs.encodeFixed x ++ fs.encodeVariable x)) :
    fs.readBoth offset bytes =
      .ok (fs.owned x, offset + (fs.encodeFixed x ++ fs.encodeVariable x).length) := by
  have hright := hseg.right
  rw [fs.length_encodeFixed] at hright
  rw [readBoth, fs.readFixedPart_segment x offset hseg.left, Outcome.bind_ok,
    h bytes offset _ hseg.left hright, List.length_append, fs.length_encodeFixed, Nat.add_assoc]

theorem Variants.variantId_lt : (vs : Variants) → (x : vs.Val) → vs.variantId x < vs.length
  | .nil, x => nomatch x
  | .cons _ _, .inl _ => Nat.succ_pos _
  | .cons _ vs, .inr x => Nat.succ_lt_succ (vs.variantId_lt x)

/-- The number of the variant is read first. -/
theorem Ty.read_enum {vs : Variants} (hlen : vs.length ≤ 256) {variantId : Nat}
    (hid : variantId < vs.length) (rest : Bytes) :
    Ty.read (.enum vs) (toLe vs.variantLen variantId ++ rest) =
      vs.read vs.variantLen variantId (toLe vs.variantLen variantId ++ rest) := by
  rw [read]
  by_cases hone : vs.length ≤ 1
  · rw [if_pos hone, show variantId = 0 by omega]
  · have hbyte : readByte (toLe vs.variantLen variantId ++ rest) 0 =
        .ok (UInt8.ofNat variantId) := by
      rw [Variants.variantLen_eq_one (by omega) hlen]
      rfl
    rw [if_neg hone, hbyte, Outcome.bind_ok,
      UInt8.toNat_ofNat_of_lt' (Nat.lt_of_lt_of_le hid hlen)]

/-! ### Every type -/

mutual

theorem Value.reads : (v : Value) → v.Accepted → (x : v.Val) → v.Small x → v.Reads x
  | .emptyTuple, _, _, _ | .bool, _, _, _ | .number _, _, _, _ | .option _, _, none, _ =>
    .of_bytePtr rfl fun _ _ _ _ => rfl
  | .string, _, s, hx => .of_bytePtr rfl fun _ bytes bytePtr hseg => by
    rw [Value.fixedOf, Nat.mod_eq_of_lt hx]
    exact readString_segment hseg
  | .cow v, h, x, hx => .cow (v.reads h.2.2 x.get hx)
  | .option v, h, some x, hx => .some (v.reads h x hx)
  | .array t _, h, ⟨xs, hxs⟩, hx => .of_bytePtr rfl fun _ _ _ hseg => by
    subst hxs
    exact Ty.readItems_segment (fun x hmem => t.reads h x (hx x hmem)) hseg
  | .vec t, h, xs, hx => .of_bytePtr rfl fun _ bytes bytePtr hseg => by
    have hread := Ty.readItems_segment (fun x hmem => t.reads h x (hx.2 x hmem)) hseg
    rw [Value.fixedOf, Nat.mod_eq_of_lt hx.1, Value.readVariablePart, hread]
    rfl
  | .delegated t, h, x, hx => .delegated (t.reads h x hx)

/-- A value is read from its encoding, whatever follows. -/
theorem Ty.reads : (t : Ty) → t.Accepted → (x : t.Val) → t.Small x → ∀ rest,
    t.read (t.encode x ++ rest) = .ok (t.owned x, t.byteLen x)
  | .lone v, h, x, hx, rest => by
    have hseg : Segment (v.encodeFixed x ++ v.encodeVariable x ++ rest) 0
        (v.encodeFixed x ++ v.encodeVariable x) := Segment.self _ rest
    have hright := hseg.right
    rw [v.length_encodeFixed, Nat.zero_add] at hright
    have hread := (v.reads h x hx).static _ 0 _ hseg.left hright
    rw [Ty.encode, Ty.read, v.readFixedPart_segment (o := .static 0) x hseg.left, Outcome.bind_ok,
      Ty.byteLen, ← v.length_encodeVariable]
    exact hread
  | .struct fs, h, x, hx, rest => by
    have hread := (fs.reads h x hx).both (Segment.self _ rest)
    rw [Nat.zero_add] at hread
    rw [Ty.read_struct, ← Ty.length_encode]
    exact hread
  | .enum vs, h, x, hx, rest => by
    have hread := vs.reads h.2.2 x hx (toLe vs.variantLen (vs.variantId x) ++ vs.encode x ++ rest)
      vs.variantLen ⟨toLe vs.variantLen (vs.variantId x), rest, rfl, length_toLe _ _⟩
    rw [List.append_assoc] at hread
    rw [Ty.encode, List.append_assoc, Ty.read_enum h.2.1 (vs.variantId_lt x), ← Ty.length_encode,
      Ty.encode, List.length_append, length_toLe]
    exact hread

theorem Fields.reads : (fs : Fields) → fs.Accepted → (x : fs.Val) → fs.Small x → fs.Reads x
  | .nil, _, _, _ => fun _ _ _ _ _ => rfl
  | .cons v fs, h, (x, xs), hx => .cons (v.reads h.1 x hx.1) (fs.reads h.2 xs hx.2)

theorem Variants.reads : (vs : Variants) → vs.Accepted → (x : vs.Val) → vs.Small x →
    ∀ bytes variantLen, Segment bytes variantLen (vs.encode x) →
    vs.read variantLen (vs.variantId x) bytes =
      .ok (vs.owned x, variantLen + (vs.encode x).length)
  | .nil, _, x, _ => nomatch x
  | .cons fs _, h, .inl x, hx => fun bytes variantLen hseg => by
    have hread := (fs.reads h.1 x hx).both hseg
    rw [Variants.variantId, Variants.read_zero, hread]
    rfl
  | .cons _ vs, h, .inr x, hx => fun bytes variantLen hseg => by
    rw [Variants.variantId, Variants.read, vs.reads h.2 x hx bytes variantLen hseg]
    rfl

end

end MiniUdp.Derive
