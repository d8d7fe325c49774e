import MiniUdp.Derive.Erase
import MiniUdp.Derive.NamedTypes
import MiniUdp.Derive.Within

/-!
# Is a `Cow` transparent?

A value with a `Cow` should be written as its owned form is, and read back up
to the `Cow` (`Ty.Transparent`). There are two exceptions. An `Option` that
holds a `Cow` of a number writes its bytes twice, and all that follows is
shifted; the length of a `Cow` of a type with an impl of its own is never
found. The property holds of a value and of all that have an impl of their own
inside it just when it has neither and every length fits its header
(`Ty.transparent_iff`). This is about types where no header is captured: the
header of a string can be, and then that of a `Cow` of it is not.
-/

namespace MiniUdp.Derive

open Utf8

/-! ## Transparent values -/

/-- The value and its owned form have the length `n`, are written as the same bytes and nothing
else, and are read back as the same value up to the `Cow`s, whatever the fields are called as long
as no header is captured. -/
structure Ty.Alike (t : Ty) (x : t.Val) (n : Nat) : Prop where
  byteLen : t.runByteLen x = .ok n
  ownedByteLen : t.erase.runByteLen (t.toOwned x) = .ok n
  bytes : ∀ bytes : Bytes, n ≤ bytes.length → ∃ bs : Bytes, bs.length = n ∧
    t.runWriteToBytes x bytes = (bs ++ bytes.drop n, .ok ()) ∧
    t.erase.runWriteToBytes (t.toOwned x) bytes = (bs ++ bytes.drop n, .ok ()) ∧
    (∀ ns, t.Uncaptured ns →
      ∃ y, t.fromBytesNamed ns (bs ++ bytes.drop n) = .ok y ∧ t.toOwned y = t.toOwned x) ∧
    ∀ ns, t.erase.Uncaptured ns →
      t.erase.fromBytesNamed ns (bs ++ bytes.drop n) = .ok (t.toOwned x)

def Ty.Transparent (t : Ty) (x : t.Val) : Prop := ∃ n, t.Alike x n

section

variable (P : (t : Ty) → t.Val → Prop)

mutual

def Value.Everywhere : (v : Value) → v.Val → Prop
  | .emptyTuple, _ | .bool, _ | .number _, _ | .string, _ | .option _, none => True
  | .cow v, x => v.Everywhere x.get
  | .option v, some x => v.Everywhere x
  | .array t _, xs => ∀ x ∈ xs.val, t.Everywhere x
  | .vec t, xs => ∀ x ∈ xs, t.Everywhere x
  | .delegated t, x => t.Everywhere x

/-- `P` holds of the value and of every value inside it with an impl of its own. -/
def Ty.Everywhere : (t : Ty) → t.Val → Prop
  | .lone v, x => P (.lone v) x ∧ v.Everywhere x
  | .struct fs, x => P (.struct fs) x ∧ fs.Everywhere x
  | .enum vs, x => P (.enum vs) x ∧ vs.Everywhere x

def Fields.Everywhere : (fs : Fields) → fs.Val → Prop
  | .nil, _ => True
  | .cons v fs, (x, xs) => v.Everywhere x ∧ fs.Everywhere xs

def Variants.Everywhere : (vs : Variants) → vs.Val → Prop
  | .nil, x => nomatch x
  | .cons fs _, .inl x => fs.Everywhere x
  | .cons _ vs, .inr x => vs.Everywhere x

end

end

/-- The lengths in the code for the value itself fit their headers. -/
def Value.OwnSmall : (v : Value) → v.Val → Prop
  | .string, s => (asBytes s).length < 2 ^ 32
  | .vec _, xs => xs.length < 2 ^ 32
  | .cow v, x => v.OwnSmall x.get
  | .option v, some x => v.OwnSmall x
  | .option _, none | .emptyTuple, _ | .bool, _ | .number _, _ | .array _ _, _
  | .delegated _, _ => True

def Fields.OwnSmall : (fs : Fields) → fs.Val → Prop
  | .nil, _ => True
  | .cons v fs, (x, xs) => v.OwnSmall x ∧ fs.OwnSmall xs

def Variants.OwnSmall : (vs : Variants) → vs.Val → Prop
  | .nil, x => nomatch x
  | .cons fs _, .inl x => fs.OwnSmall x
  | .cons _ vs, .inr x => vs.OwnSmall x

/-! ### From the parts -/

/-- Nothing is written twice, every length fits its header, and every length is found. -/
def Ty.Good (t : Ty) (x : t.Val) : Prop := t.Single x ∧ t.Small x ∧ t.Measured x

theorem Value.single_of_parts : (v : Value) → (x : v.Val) → v.Parts Ty.Good x → v.OwnSingle x →
    v.Single x
  | .emptyTuple, _, _, _ | .bool, _, _, _ | .number _, _, _, _ | .string, _, _, _
  | .option _, none, _, _ => trivial
  | .cow v, x, h, hown => v.single_of_parts x.get h hown
  | .option v, some x, h, hown => ⟨hown.1, v.single_of_parts x h hown.2⟩
  | .array _ _, _, h, _ | .vec _, _, h, _ => fun x hx => (h x hx).1
  | .delegated _, _, h, _ => h.1

theorem Value.small_of_parts : (v : Value) → (x : v.Val) → v.Parts Ty.Good x → v.OwnSmall x →
    v.Small x
  | .emptyTuple, _, _, _ | .bool, _, _, _ | .number _, _, _, _ | .option _, none, _, _ => trivial
  | .string, _, _, hown => hown
  | .cow v, x, h, hown => v.small_of_parts x.get h hown
  | .option v, some x, h, hown => v.small_of_parts x h hown
  | .array _ _, _, h, _ => fun x hx => (h x hx).2.1
  | .vec _, _, h, hown => ⟨hown, fun x hx => (h x hx).2.1⟩
  | .delegated _, _, h, _ => h.2.1

theorem Fields.single_of_parts : (fs : Fields) → (x : fs.Val) → fs.Parts Ty.Good x →
    fs.OwnSingle x → fs.Single x
  | .nil, _, _, _ => trivial
  | .cons v fs, (x, xs), h, hown =>
    ⟨v.single_of_parts x h.1 hown.1, fs.single_of_parts xs h.2 hown.2⟩

theorem Fields.small_of_parts : (fs : Fields) → (x : fs.Val) → fs.Parts Ty.Good x →
    fs.OwnSmall x → fs.Small x
  | .nil, _, _, _ => trivial
  | .cons v fs, (x, xs), h, hown =>
    ⟨v.small_of_parts x h.1 hown.1, fs.small_of_parts xs h.2 hown.2⟩

theorem Variants.single_of_parts : (vs : Variants) → (x : vs.Val) → vs.Parts Ty.Good x →
    vs.OwnSingle x → vs.Single x
  | .nil, x, _, _ => nomatch x
  | .cons fs _, .inl x, h, hown => fs.single_of_parts x h hown
  | .cons _ vs, .inr x, h, hown => vs.single_of_parts x h hown

theorem Variants.small_of_parts : (vs : Variants) → (x : vs.Val) → vs.Parts Ty.Good x →
    vs.OwnSmall x → vs.Small x
  | .nil, x, _, _ => nomatch x
  | .cons fs _, .inl x, h, hown => fs.small_of_parts x h hown
  | .cons _ vs, .inr x, h, hown => vs.small_of_parts x h hown

/-! ## Lengths that do not fit -/

/-- A field that is read back from its encoding has lengths that fit their headers. -/
structure Value.Tells (v : Value) (x : v.Val) : Prop where
  static : ∀ bytes offset bytePtr, Segment bytes offset (v.encodeFixed x) →
    Segment bytes bytePtr (v.encodeVariable x) → ∀ y r,
    v.readVariablePart (.static offset) (v.fixedOf x) bytes bytePtr = .ok (y, r) →
    v.toOwned y = v.toOwned x → v.OwnSmall x
  dynamic : ∀ bytes bytePtr, Segment bytes bytePtr (v.encodeFixed x ++ v.encodeVariable x) →
    ∀ y r, v.readInner .dynamic bytes bytePtr = .ok (y, r) →
    v.toOwned y = v.toOwned x → v.OwnSmall x

theorem Value.Tells.of_own {v : Value} {x : v.Val} (h : v.OwnSmall x) : v.Tells x :=
  ⟨fun _ _ _ _ _ _ _ _ _ => h, fun _ _ _ _ _ _ _ => h⟩

theorem Value.Tells.of_bytePtr {v : Value} {x : v.Val} (hcow : v.isCow = false)
    (h : ∀ o bytes bytePtr, Segment bytes bytePtr (v.encodeVariable x) → ∀ y r,
      v.readVariablePart o (v.fixedOf x) bytes bytePtr = .ok (y, r) →
      v.toOwned y = v.toOwned x → v.OwnSmall x) : v.Tells x where
  static bytes offset bytePtr _ hvariable := h (.static offset) bytes bytePtr hvariable
  dynamic bytes bytePtr hseg y r hread := by
    have hright := hseg.right
    rw [v.length_encodeFixed] at hright
    rw [readInner, v.readFixedPart_segment (o := .dynamic) x hseg.left, Outcome.bind_ok, hcow,
      if_neg Bool.false_ne_true] at hread
    exact h .dynamic bytes _ hright y r hread

theorem Value.Tells.cow {v : Value} {x : Cow v.Val} (h : v.Tells x.get) :
    Value.Tells (.cow v) x where
  static bytes offset bytePtr hfixed hvariable y r hread heq := by
    rw [readVariablePart_cow, readInner_static (x := x.get) hfixed, Outcome.bind_eq_ok] at hread
    obtain ⟨⟨y', r'⟩, hinner, hy⟩ := hread
    cases hy
    exact h.static bytes offset bytePtr hfixed hvariable y' _ hinner heq
  dynamic bytes bytePtr hseg y r hread heq := by
    rw [readInner_cow, Outcome.bind_eq_ok] at hread
    obtain ⟨⟨y', r'⟩, hinner, hy⟩ := hread
    cases hy
    exact h.dynamic bytes bytePtr hseg y' _ hinner heq

theorem Value.Tells.some {v : Value} {x : v.Val} (h : v.Tells x) :
    Value.Tells (.option v) (Option.some x) :=
  .of_bytePtr rfl fun _ bytes bytePtr hseg y r hread heq => by
    rw [readVariablePart_option] at hread
    have hinner := (if_pos rfl).symm.trans hread
    rw [Outcome.bind_eq_ok] at hinner
    obtain ⟨⟨y', r'⟩, hinner, hy⟩ := hinner
    cases hy
    exact h.dynamic bytes bytePtr hseg y' _ hinner (Option.some.inj heq)

/-- The string read for one that is too long is shorter. -/
theorem Value.Tells.string (s : String) : Value.Tells .string s :=
  .of_bytePtr rfl fun _ bytes bytePtr hseg y r hread heq => by
    obtain rfl : y = s := heq
    by_contra hlarge
    have hlarge' : 2 ^ 32 ≤ (asBytes y).length := Nat.not_lt.mp hlarge
    have hlt : (asBytes y).length % 2 ^ 32 < 2 ^ 32 := Nat.mod_lt _ (by decide)
    have hseg' : Segment bytes bytePtr ((asBytes y).take ((asBytes y).length % 2 ^ 32) ++
        (asBytes y).drop ((asBytes y).length % 2 ^ 32)) := by
      rw [List.take_append_drop]
      exact hseg
    have hslice := sliceOf_segment hseg'.left
    rw [List.length_take_of_le (by omega)] at hslice
    have hstring : readString ((asBytes y).length % 2 ^ 32) bytes bytePtr = .ok (y, r) := hread
    rw [readString, hslice, Outcome.bind_ok] at hstring
    have hy := congrArg Prod.fst (Outcome.ok.inj hstring)
    have hlen := length_fromUtf8Lossy_take y ((asBytes y).length % 2 ^ 32)
    rw [show fromUtf8Lossy _ = y from hy] at hlen
    have hmod := Nat.mod_add_div (asBytes y).length (2 ^ 32)
    have hdiv : 1 ≤ (asBytes y).length / 2 ^ 32 := Nat.div_pos hlarge' (by decide)
    omega

/-- The vector read for one that is too long has fewer items. -/
theorem Value.Tells.vec {t : Ty} (xs : List t.Val) : Value.Tells (.vec t) xs :=
  .of_bytePtr rfl fun _ bytes bytePtr hseg y r hread heq => by
    rw [readVariablePart, Outcome.bind_eq_ok] at hread
    obtain ⟨⟨ys, r'⟩, -, hy⟩ := hread
    cases hy
    have hlen := congrArg List.length (show ys.val.map t.toOwned = xs.map t.toOwned from heq)
    rw [List.length_map, List.length_map, ys.property] at hlen
    have hlt : xs.length % 2 ^ 32 < 2 ^ 32 := Nat.mod_lt _ (by decide)
    have hown : xs.length < 2 ^ 32 := hlen ▸ hlt
    exact hown

theorem Value.tells : (v : Value) → (x : v.Val) → v.Tells x
  | .emptyTuple, _ | .bool, _ | .number _, _ | .array _ _, _ | .delegated _, _
  | .option _, none => .of_own trivial
  | .string, s => .string s
  | .cow v, x => .cow (v.tells x.get)
  | .option v, some x => .some (v.tells x)
  | .vec _, xs => .vec xs

/-- Field by field: as long as the lengths fit, the next field is found where it is. -/
theorem Fields.ownSmall_of_read {bytes : Bytes} : (fs : Fields) → fs.Accepted → (x : fs.Val) →
    fs.Parts Ty.Good x → ∀ offset bytePtr, Segment bytes offset (fs.encodeFixed x) →
    Segment bytes bytePtr (fs.encodeVariable x) → ∀ y r,
    fs.readVariablePart offset (fs.fixedOf x) bytes bytePtr = .ok (y, r) →
    fs.toOwned y = fs.toOwned x → fs.OwnSmall x
  | .nil, _, _, _, _, _, _, _, _, _, _, _ => trivial
  | .cons v fs, h, (x, xs), hparts, offset, bytePtr, hfixed, hvariable, y, r, hread, heq => by
    rw [fixedOf, readVariablePart, Outcome.bind_eq_ok] at hread
    obtain ⟨⟨y1, r1⟩, hv, hread⟩ := hread
    rw [Outcome.bind_eq_ok] at hread
    obtain ⟨⟨ys, r2⟩, hfs, hy⟩ := hread
    cases hy
    obtain ⟨heq1, heqs⟩ := Prod.mk.inj heq
    have hown := (v.tells x).static bytes offset bytePtr hfixed.left hvariable.left y1 r1 hv heq1
    have hreads := (v.reads h.1 x (v.small_of_parts x hparts.1 hown)).static bytes offset bytePtr
      hfixed.left hvariable.left
    obtain ⟨-, rfl⟩ := Prod.mk.inj (Outcome.ok.inj (hv.symm.trans hreads))
    have hright := hfixed.right
    rw [v.length_encodeFixed] at hright
    exact ⟨hown, fs.ownSmall_of_read h.2 xs hparts.2 _ _ hright hvariable.right ys _ hfs heqs⟩

/-- Both parts of the fields, one after the other. -/
theorem Fields.ownSmall_of_both {fs : Fields} (h : fs.Accepted) {x : fs.Val}
    (hparts : fs.Parts Ty.Good x) {bytes : Bytes} {offset : Nat}
    (hseg : Segment bytes offset (fs.encodeFixed x ++ fs.encodeVariable x)) {y : fs.Val} {r : Nat}
    (hread : fs.readBoth offset bytes = .ok (y, r)) (heq : fs.toOwned y = fs.toOwned x) :
    fs.OwnSmall x := by
  have hright := hseg.right
  rw [fs.length_encodeFixed] at hright
  rw [Fields.readBoth, fs.readFixedPart_segment x offset hseg.left, Outcome.bind_ok] at hread
  exact fs.ownSmall_of_read h x hparts offset _ hseg.left hright y r hread heq

theorem Variants.ownSmall_of_read {bytes : Bytes} : (vs : Variants) → vs.Accepted →
    (x : vs.Val) → vs.Parts Ty.Good x → ∀ variantLen, Segment bytes variantLen (vs.encode x) →
    ∀ y r, vs.read variantLen (vs.variantId x) bytes = .ok (y, r) →
    vs.toOwned y = vs.toOwned x → vs.OwnSmall x
  | .nil, _, x, _, _, _, _, _, _, _ => nomatch x
  | .cons fs _, h, .inl x, hparts, variantLen, hseg, y, r, hread, heq => by
    rw [variantId, read_zero, Outcome.bind_eq_ok] at hread
    obtain ⟨⟨y', r'⟩, hread, hy⟩ := hread
    cases hy
    exact Fields.ownSmall_of_both h.1 hparts hseg hread (Sum.inl.inj heq)
  | .cons _ vs, h, .inr x, hparts, variantLen, hseg, y, r, hread, heq => by
    rw [variantId, read, Outcome.bind_eq_ok] at hread
    obtain ⟨⟨y', r'⟩, hread, hy⟩ := hread
    cases hy
    exact vs.ownSmall_of_read h.2 x hparts variantLen hseg y' _ hread (Sum.inr.inj heq)

/-! ## When a `Cow` is transparent -/

/-- The length of a transparent value is found. -/
theorem Ty.Transparent.measured {t : Ty} {x : t.Val} (h : t.Transparent x) : t.Measured x := by
  obtain ⟨n, h⟩ := h
  exact ((t.runByteLen_returnsIff x).of_eq_ok h.byteLen).1

/-- What the codec does with a transparent value. -/
theorem Ty.Transparent.codec {t : Ty} {x : t.Val} (h : t.Transparent x) (bytes : Bytes)
    (hlen : t.byteLen x ≤ bytes.length) : ∃ bs : Bytes, bs.length = t.byteLen x ∧
      t.writeToBytes x bytes = (bs ++ bytes.drop (t.byteLen x), .ok ()) ∧
      ∃ y r, t.read (bs ++ bytes.drop (t.byteLen x)) = .ok (y, r) ∧ t.toOwned y = t.toOwned x := by
  have hmeasured := h.measured
  obtain ⟨n, h⟩ := h
  obtain rfl : t.byteLen x = n :=
    Outcome.ok.inj ((Ty.runByteLen_of_measured hmeasured).symm.trans h.byteLen)
  obtain ⟨bs, hbs, hwrite, -, hread, -⟩ := h.bytes bytes hlen
  rw [t.runWriteToBytes_eq x (t.stepped_of_measured x hmeasured)] at hwrite
  refine ⟨bs, hbs, hwrite, ?_⟩
  obtain ⟨y, hy, heq⟩ := hread t.anyNames t.uncaptured_any
  rw [Ty.fromBytesNamed, t.runReadNamed_eq _ t.uncaptured_any] at hy
  obtain ⟨⟨y', r⟩, hrun, hy⟩ := Outcome.bind_eq_ok.mp hy
  obtain rfl : y' = y := Outcome.ok.inj hy
  exact ⟨y', r, ((t.runRead_runs _).of_eq_ok hrun).1, heq⟩

/-- A transparent value is written once, as its encoding. -/
theorem Ty.Transparent.ownSingle {t : Ty} {x : t.Val} (h : t.Transparent x) (ha : t.Accepted) :
    t.OwnSingle x := by
  obtain ⟨bs, -, hwrite, -⟩ := h.codec (List.replicate (t.byteLen x) 0) (by simp)
  have hwithin := (t.within ha x (t.byteLen x) _ List.length_replicate).2 () (by rw [hwrite])
  exact hwithin.2 rfl

/-- A transparent value that is written once is read back from its encoding. -/
theorem Ty.Transparent.read {t : Ty} {x : t.Val} (h : t.Transparent x) (ha : t.Accepted)
    (hsingle : t.Single x) :
    ∃ y r, t.read (t.encode x ++ []) = .ok (y, r) ∧ t.toOwned y = t.toOwned x := by
  have hlen : (t.encode x).length = t.byteLen x := t.length_encode x
  obtain ⟨bs, -, hwrite, hread⟩ := h.codec (t.encode x) hlen.ge
  have hwrites := t.writes ha x hsingle (t.encode x) (by omega)
  rw [hwrite] at hwrites
  have hbytes := congrArg Prod.fst hwrites
  simp only [List.take_zero, List.nil_append, Nat.zero_add, ← hlen, List.drop_length,
    List.append_nil] at hbytes
  rwa [← hlen, List.drop_length, hbytes] at hread

theorem Ty.transparent_of_good {t : Ty} (ha : t.Accepted) {x : t.Val} (h : t.Good x) :
    t.Transparent x := by
  obtain ⟨hsingle, hsmall, hmeasured⟩ := h
  have hcow := t.cowFree_erase
  have hmeasured' := t.erase.measured_of_cowFree hcow (t.toOwned x)
  refine ⟨t.byteLen x, Ty.runByteLen_of_measured hmeasured, ?_, fun bytes hlen => ?_⟩
  · rw [Ty.runByteLen_of_measured hmeasured', t.byteLen_toOwned]
  · have hwrites := t.writes ha x hsingle bytes (by rw [t.length_encode]; omega)
    have hwrites' := t.erase.writes (t.accepted_erase ha) (t.toOwned x)
      (t.erase.single_of_cowFree hcow _) bytes (by rw [t.encode_toOwned, t.length_encode]; omega)
    have hread := t.reads ha x hsmall (bytes.drop (t.byteLen x))
    have hread' := t.erase.reads (t.accepted_erase ha) (t.toOwned x) (t.small_toOwned x hsmall)
      (bytes.drop (t.byteLen x))
    rw [t.erase.owned_of_cowFree hcow, t.encode_toOwned] at hread'
    rw [t.encode_toOwned] at hwrites'
    rw [t.length_encode, List.take_zero, List.nil_append, Nat.zero_add] at hwrites hwrites'
    rw [t.runWriteToBytes_eq x (t.stepped_of_measured x hmeasured),
      t.erase.runWriteToBytes_eq _ (t.erase.stepped_of_measured _ hmeasured')]
    exact ⟨t.encode x, t.length_encode x, hwrites, hwrites', fun ns hns =>
      ⟨t.owned x, Ty.fromBytesNamed_of_read hread ((t.measured_owned x).mpr hmeasured) hns,
        t.toOwned_owned x⟩, fun ns hns => Ty.fromBytesNamed_of_read hread' hmeasured' hns⟩

mutual

theorem Value.everywhere_of_good : (v : Value) → v.Accepted → (x : v.Val) → v.Single x →
    v.Small x → v.Measured x → v.Everywhere Ty.Transparent x
  | .emptyTuple, _, _, _, _, _ | .bool, _, _, _, _, _ | .number _, _, _, _, _, _
  | .string, _, _, _, _, _ | .option _, _, none, _, _, _ => trivial
  | .cow v, h, x, h1, h2, h3 => v.everywhere_of_good h.2.2 x.get h1 h2 h3.2
  | .option v, h, some x, h1, h2, h3 => v.everywhere_of_good h x h1.2 h2 h3
  | .array t _, h, _, h1, h2, h3 => fun x hx =>
    t.everywhere_of_good h x ⟨h1 x hx, h2 x hx, h3 x hx⟩
  | .vec t, h, _, h1, h2, h3 => fun x hx =>
    t.everywhere_of_good h x ⟨h1 x hx, h2.2 x hx, h3 x hx⟩
  | .delegated t, h, x, h1, h2, h3 => t.everywhere_of_good h x ⟨h1, h2, h3⟩

theorem Ty.everywhere_of_good : (t : Ty) → t.Accepted → (x : t.Val) → t.Good x →
    t.Everywhere Ty.Transparent x
  | .lone v, h, x, hx =>
    ⟨Ty.transparent_of_good h hx, v.everywhere_of_good h x hx.1 hx.2.1 hx.2.2⟩
  | .struct fs, h, x, hx =>
    ⟨Ty.transparent_of_good h hx, fs.everywhere_of_good h x hx.1 hx.2.1 hx.2.2⟩
  | .enum vs, h, x, hx =>
    ⟨Ty.transparent_of_good h hx, vs.everywhere_of_good h.2.2 x hx.1 hx.2.1 hx.2.2⟩

theorem Fields.everywhere_of_good : (fs : Fields) → fs.Accepted → (x : fs.Val) → fs.Single x →
    fs.Small x → fs.Measured x → fs.Everywhere Ty.Transparent x
  | .nil, _, _, _, _, _ => trivial
  | .cons v fs, h, (x, xs), h1, h2, h3 =>
    ⟨v.everywhere_of_good h.1 x h1.1 h2.1 h3.1, fs.everywhere_of_good h.2 xs h1.2 h2.2 h3.2⟩

theorem Variants.everywhere_of_good : (vs : Variants) → vs.Accepted → (x : vs.Val) →
    vs.Single x → vs.Small x → vs.Measured x → vs.Everywhere Ty.Transparent x
  | .nil, _, x, _, _, _ => nomatch x
  | .cons fs _, h, .inl x, h1, h2, h3 => fs.everywhere_of_good h.1 x h1 h2 h3
  | .cons _ vs, h, .inr x, h1, h2, h3 => vs.everywhere_of_good h.2 x h1 h2 h3

end

mutual

theorem Value.parts_of_everywhere : (v : Value) → v.Accepted → (x : v.Val) →
    v.Everywhere Ty.Transparent x → v.Parts Ty.Good x
  | .emptyTuple, _, _, _ | .bool, _, _, _ | .number _, _, _, _ | .string, _, _, _
  | .option _, _, none, _ => trivial
  | .cow v, h, x, hx => v.parts_of_everywhere h.2.2 x.get hx
  | .option v, h, some x, hx => v.parts_of_everywhere h x hx
  | .array t _, h, _, hx | .vec t, h, _, hx => fun x hmem => t.good_of_everywhere h x (hx x hmem)
  | .delegated t, h, x, hx => t.good_of_everywhere h x hx

theorem Ty.good_of_everywhere : (t : Ty) → t.Accepted → (x : t.Val) →
    t.Everywhere Ty.Transparent x → t.Good x
  | .lone v, h, x, hx => by
    have hparts := v.parts_of_everywhere h x hx.2
    have hsingle := v.single_of_parts x hparts (hx.1.ownSingle h)
    obtain ⟨y, r, hread, heq⟩ := hx.1.read h hsingle
    refine ⟨hsingle, v.small_of_parts x hparts ?_, hx.1.measured⟩
    have hseg : Segment ((Ty.lone v).encode x ++ []) 0 (v.encodeFixed x ++ v.encodeVariable x) :=
      Segment.self _ []
    have hright := hseg.right
    rw [v.length_encodeFixed, Nat.zero_add] at hright
    rw [Ty.read, v.readFixedPart_segment (o := .static 0) x hseg.left, Outcome.bind_ok] at hread
    exact (v.tells x).static _ 0 _ hseg.left hright y r hread heq
  | .struct fs, h, x, hx => by
    have hparts := fs.parts_of_everywhere h x hx.2
    have hsingle := fs.single_of_parts x hparts (hx.1.ownSingle h)
    obtain ⟨y, r, hread, heq⟩ := hx.1.read h hsingle
    refine ⟨hsingle, fs.small_of_parts x hparts ?_, hx.1.measured⟩
    rw [Ty.read_struct] at hread
    exact Fields.ownSmall_of_both h hparts (Segment.self _ []) hread heq
  | .enum vs, h, x, hx => by
    have hparts := vs.parts_of_everywhere h.2.2 x hx.2
    have hsingle := vs.single_of_parts x hparts (hx.1.ownSingle h)
    obtain ⟨y, r, hread, heq⟩ := hx.1.read h hsingle
    refine ⟨hsingle, vs.small_of_parts x hparts ?_, hx.1.measured⟩
    rw [Ty.encode, List.append_assoc, Ty.read_enum h.2.1 (vs.variantId_lt x)] at hread
    refine vs.ownSmall_of_read h.2.2 x hparts _ ?_ y r hread heq
    exact ⟨toLe vs.variantLen (vs.variantId x), [], (List.append_assoc _ _ _).symm,
      length_toLe _ _⟩

theorem Fields.parts_of_everywhere : (fs : Fields) → fs.Accepted → (x : fs.Val) →
    fs.Everywhere Ty.Transparent x → fs.Parts Ty.Good x
  | .nil, _, _, _ => trivial
  | .cons v fs, h, (x, xs), hx =>
    ⟨v.parts_of_everywhere h.1 x hx.1, fs.parts_of_everywhere h.2 xs hx.2⟩

theorem Variants.parts_of_everywhere : (vs : Variants) → vs.Accepted → (x : vs.Val) →
    vs.Everywhere Ty.Transparent x → vs.Parts Ty.Good x
  | .nil, _, x, _ => nomatch x
  | .cons fs _, h, .inl x, hx => fs.parts_of_everywhere h.1 x hx
  | .cons _ vs, h, .inr x, hx => vs.parts_of_everywhere h.2 x hx

end

/-- A value and all that have an impl of their own inside it are transparent just when no `Option`
holds a `Cow` of a number, strings and vectors have fewer than 2^32 elements, and no `Cow` of a type
with an impl of its own is measured. -/
theorem Ty.transparent_iff (t : Ty) (haccepted : t.Accepted) (x : t.Val) :
    t.Everywhere Ty.Transparent x ↔ t.Single x ∧ t.Small x ∧ t.Measured x :=
  ⟨t.good_of_everywhere haccepted x, t.everywhere_of_good haccepted x⟩

/-- `struct { name: Cow<str>, n: Cow<u32>, list: Option<Cow<Vec<u8>>> }` -/
def cows : Ty :=
  .struct (.cons (.cow .string) (.cons (.cow (.number .u32))
    (.cons (.option (.cow (.vec (.lone (.number .u8))))) .nil)))

def cowsVal : cows.Val :=
  (.borrowed "cow", .owned 0x01020304#32, some (.borrowed [5#8, 6#8]), ())

theorem Ty.transparent_iff_cows : cows.Everywhere Ty.Transparent cowsVal :=
  (Ty.transparent_iff cows
    ⟨⟨by decide, by decide, trivial⟩, ⟨by decide, by decide, trivial⟩,
      ⟨by decide, by decide, trivial⟩, trivial⟩ cowsVal).mpr
    ⟨⟨trivial, trivial, ⟨fun _ => rfl, fun _ _ => trivial⟩, trivial⟩,
      ⟨(by decide +kernel : (asBytes "cow").length < 2 ^ 32), trivial,
        ⟨by decide, fun _ _ => trivial⟩, trivial⟩,
      ⟨⟨rfl, trivial⟩, ⟨rfl, trivial⟩, ⟨rfl, fun _ _ => trivial⟩, trivial⟩⟩

/-- `struct { n: Option<Cow<u16>>, s: String }` -/
def optionCow : Ty := .struct (.cons (.option (.cow (.number .u16))) (.cons .string .nil))

def optionCowVal : optionCow.Val := (some (.borrowed 0x0102#16), "a", ())

/-- `struct { a: Cow<str>, a_fixed: usize }` -/
def cowFixed : Ty := .struct (.cons (.cow .string) (.cons (.number (.usize .bits64)) .nil))

def cowFixedVal : cowFixed.Val := (.borrowed "hi", 0#64, ())

def cowFixedBytes : Bytes := [2, 0, 0, 0, 0, 0, 0, 0, 0, 0, 0, 0, 104, 105]

instance : DecidableEq cowFixed.erase.Val :=
  inferInstanceAs (DecidableEq (String × BitVec 64 × Unit))

/-- The number is written twice: the eight bytes of `byte_len` are too few, and in ten the string
is not where it is read. The length of a `Cow<P>` is never found, that of a `P` is. The header of
the `String` is captured, that of the `Cow<str>` is not. -/
theorem Ty.optionCow_not_transparent :
    (optionCow.Accepted ∧ optionCow.runByteLen optionCowVal = .ok 8 ∧
      (optionCow.runWriteToBytes optionCowVal (List.replicate 8 0)).2 = .err .sliceTooShort ∧
      optionCow.runWriteToBytes optionCowVal (List.replicate 10 0) =
        ([1, 1, 0, 0, 0, 2, 1, 2, 1, 97], .ok ()) ∧
      ¬ optionCow.Transparent optionCowVal) ∧
    (cowPoint.Accepted ∧ cowPoint.runByteLen (.owned (1#16, ()), ()) = .hang ∧
      cowPoint.erase.runByteLen ((1#16, ()), ()) = .ok 2 ∧
      ¬ cowPoint.Transparent (.owned (1#16, ()), ())) ∧
    cowFixed.Accepted ∧
    cowFixed.runWriteToBytes cowFixedVal (List.replicate 14 0) = (cowFixedBytes, .ok ()) ∧
    (cowFixed.fromBytesNamed (clashNames, (), (), ()) cowFixedBytes >>= fun x =>
      pure (cowFixed.toOwned x)) = .ok (cowFixed.toOwned cowFixedVal) ∧
    cowFixed.erase.fromBytesNamed (clashNames, (), (), ()) cowFixedBytes =
      .ok ("", 0#64, ()) := by
  have haccepted : optionCow.Accepted := ⟨⟨by decide, by decide, trivial⟩, trivial, trivial⟩
  have hhang : cowPoint.runByteLen (.owned (1#16, ()), ()) = .hang := rfl
  refine ⟨⟨haccepted, by decide +kernel, by decide +kernel, by decide +kernel, fun h => ?_⟩,
    ⟨⟨⟨by decide, by decide, trivial, trivial⟩, trivial⟩, hhang, rfl, ?_⟩,
    ⟨⟨by decide, by decide, trivial⟩, trivial, trivial⟩, by decide +kernel, by decide +kernel,
    by decide +kernel⟩
  · exact absurd ((h.ownSingle haccepted).1.1 rfl) (by decide)
  · rintro ⟨n, h⟩
    cases hhang.symm.trans h.byteLen

end MiniUdp.Derive
