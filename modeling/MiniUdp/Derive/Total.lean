import MiniUdp.Derive.Fits

/-!
# Decoding any bytes

`&bytes[a..b]` panics out of bounds, `bytes.get(a..b)` does not. A string is
sliced out of the bytes by a length that is part of them, and what is sliced at
`byte_ptr` is out of bounds if the last fixed part is that of a `Cow`, which is
not checked before. Without these (`Ty.Guarded`) every decoder returns a value
or an error.
-/

namespace MiniUdp.Derive

open Utf8

/-! ## Types that are guarded -/

/-- The code for the inside of an `Option` first slices the bytes at `byte_ptr`. -/
def Value.slicesInside : Value → Bool
  | .delegated _ => true
  | .array _ length => length != 0
  | .cow v => v.slicesInside
  | .emptyTuple | .bool | .number _ | .string | .option _ | .vec _ => false

/-- The code for the variable part may slice the bytes at `byte_ptr` without a look at what is
there. -/
def Value.slices : Value → Bool
  | .string | .vec _ | .delegated _ => true
  | .array _ length => length != 0
  | .cow v => v.slices
  | .option v => v.slicesInside
  | .emptyTuple | .bool | .number _ => false

theorem Value.slices_of_always : (v : Value) → v.alwaysSlices = true → v.slices = true
  | .string, _ | .delegated _, _ => rfl
  | .array _ _, h => h
  | .cow v, h => v.slices_of_always h

/-- The last of the fixed parts is that of a `Cow`. -/
def Fields.cowLast : Fields → Bool
  | .nil => false
  | .cons v fs => if fs.fixedBytes = 0 then v.isCow && v.fixedBytes != 0 else fs.cowLast

mutual

/-- No string can be read, and nothing is sliced before the `Cow` with the last of the fixed
parts. -/
def Value.Guarded : Value → Prop
  | .emptyTuple | .bool | .number _ => True
  | .string => False
  | .cow v | .option v => v.Guarded
  | .array t length => length = 0 ∨ t.Guarded
  | .vec t | .delegated t => t.Guarded

def Ty.Guarded : Ty → Prop
  | .lone v => v.Guarded
  | .struct fs => fs.Guarded
  | .enum vs => vs.Guarded

def Fields.Guarded : Fields → Prop
  | .nil => True
  | .cons v fs => v.Guarded ∧ (fs.cowLast = true → v.slices = false) ∧ fs.Guarded

def Variants.Guarded : Variants → Prop
  | .nil => True
  | .cons fs vs => fs.Guarded ∧ vs.Guarded

end

/-! ## Guarded decoders stay in bounds -/

mutual

theorem Value.not_overruns_of_guarded : (v : Value) → v.Guarded → ¬ v.Overruns
  | .emptyTuple, _ | .bool, _ | .number _, _ => id
  | .string, h => h.elim
  | .cow v, h | .option v, h => v.not_overruns_of_guarded h
  | .array t _, h => fun ho => h.elim ho.1 fun h => t.not_overruns_of_guarded h ho.2
  | .vec t, h | .delegated t, h => t.not_overruns_of_guarded h

/-- A type without strings does not overrun. -/
theorem Ty.not_overruns_of_guarded : (t : Ty) → t.Guarded → ¬ t.Overruns
  | .lone v, h => v.not_overruns_of_guarded h
  | .struct fs, h => fs.not_overruns_of_guarded h
  | .enum vs, h => vs.not_overruns_of_guarded h

theorem Fields.not_overruns_of_guarded : (fs : Fields) → fs.Guarded → ¬ fs.Overruns
  | .nil, _ => id
  | .cons v fs, h => fun ho => by
    have hv := v.not_overruns_of_guarded h.1
    rcases ho with hs | ⟨ho, -⟩ | ho
    · exact hv (v.overruns_of_makesString hs)
    · exact hv ho
    · exact fs.not_overruns_of_guarded h.2.2 ho

theorem Variants.not_overruns_of_guarded : (vs : Variants) → vs.Guarded → ¬ vs.Overruns
  | .nil, _ => id
  | .cons fs vs, h => fun ho =>
    ho.elim (fs.not_overruns_of_guarded h.1) (vs.not_overruns_of_guarded h.2)

end

/-- The code, which calls `byte_len`, reads the field just the same. -/
theorem Value.readVariablePart_eq_readWith {v : Value} (hs : v.Steppable) (o : ByteOffset)
    (f : v.Fixed) (bytes : Bytes) (bytePtr : Nat) :
    v.readVariablePart o f bytes bytePtr = v.readWith v.anyNames o f bytes bytePtr := by
  rw [← (v.runReadVariablePart_runs o f bytes bytePtr).eq hs,
    ← v.readWith_eq v.anyNames v.uncaptured_any]

theorem Value.distinct_any (v : Value) : v.Distinct v.anyNames :=
  v.distinct_of_uncaptured v.anyNames v.uncaptured_any

theorem Value.le_length_of_guarded {v : Value} (ha : v.Accepted) (h : v.Guarded)
    (hs : v.Steppable) {bytes : Bytes} {offset bytePtr r : Nat} {f : v.Fixed} {y : v.Val}
    (hread : v.readVariablePart (.static offset) f bytes bytePtr = .ok (y, r))
    (hb : bytePtr ≤ bytes.length) : r ≤ bytes.length := by
  have hno := v.not_overruns_of_guarded h
  have hstring := Bool.eq_false_iff.mpr fun hs => hno (v.overruns_of_makesString hs)
  rw [Value.readVariablePart_eq_readWith hs] at hread
  have hlands := (v.lands ha hstring v.anyNames v.distinct_any bytes).static offset f bytePtr y r
  exact (hlands hread).stop hno hb

theorem Ty.byteLen_le_of_guarded {t : Ty} (ha : t.Accepted) (h : t.Guarded) (hs : t.Steppable)
    {bytes : Bytes} {x : t.Val} (hread : value (t.read bytes) = .ok x) :
    t.byteLen x ≤ bytes.length := by
  have hns := t.distinct_of_uncaptured t.anyNames t.uncaptured_any
  rw [← (t.runRead_runs bytes).eq hs, ← t.runReadNamed_eq t.anyNames t.uncaptured_any] at hread
  exact t.fits ha t.anyNames hns (t.not_overruns_of_guarded h) bytes x hread

/-! ## Fixed parts -/

theorem readByte_returns (bytes : Bytes) (a : Nat) : (readByte bytes a).returns = true := by
  unfold readByte
  split <;> rfl

theorem readRange_returns (bytes : Bytes) (a w : Nat) : (readRange bytes a w).returns = true := by
  unfold readRange
  split <;> rfl

theorem Value.readFixedPart_returns (v : Value) (o : ByteOffset) (bytes : Bytes) (bytePtr : Nat) :
    (v.readFixedPart o bytes bytePtr).returns = true := by
  cases v with
  | emptyTuple | cow | array | delegated => rfl
  | bool | option =>
    have hflag := Outcome.returns_bind (readByte_returns bytes (o.get bytePtr))
      (f := fun byte => (pure (byte == 1) : Res Bool)) fun _ _ => rfl
    exact Outcome.returns_bind hflag fun _ _ => rfl
  | number n =>
    refine Outcome.returns_bind ?_ fun _ _ => rfl
    unfold Number.read
    split
    · exact Outcome.returns_bind (readByte_returns _ _) fun _ _ => rfl
    · exact Outcome.returns_bind (readRange_returns _ _ _) fun _ _ => rfl
  | string | vec =>
    have hlen := Outcome.returns_bind (readRange_returns bytes (o.get bytePtr) 4)
      (f := fun bs => (pure (fromLe bs) : Res Nat)) fun _ _ => rfl
    exact Outcome.returns_bind hlen fun _ _ => rfl

theorem Fields.readFixedPart_returns : (fs : Fields) → (offset : Nat) → (bytes : Bytes) →
    (fs.readFixedPart offset bytes).returns = true
  | .nil, _, _ => rfl
  | .cons v fs, _, bytes =>
    Outcome.returns_bind (v.readFixedPart_returns _ bytes 0) fun _ _ =>
      Outcome.returns_bind (fs.readFixedPart_returns _ bytes) fun _ _ => rfl

/-- Unless the last of the fixed parts is that of a `Cow`, they all are checked at first. -/
theorem Fields.inBounds_of_readFixedPart {n : Nat} : (fs : Fields) → {offset : Nat} →
    fs.FixedInBounds n (fun v => v.isCow = false) offset → fs.cowLast = false →
    InBounds n offset fs.fixedBytes
  | .nil, _, _, _ => .inl rfl
  | .cons v fs, offset, h, hlast => by
    have hrest := fs.inBounds_of_readFixedPart h.2
    unfold InBounds at hrest ⊢
    rw [cowLast] at hlast
    rw [fixedBytes]
    split at hlast
    · rename_i hzero
      cases hcow : v.isCow with
      | false =>
        have hv := h.1 hcow
        unfold InBounds at hv
        omega
      | true =>
        have : v.fixedBytes = 0 := by simpa [hcow] using hlast
        omega
    · have := hrest hlast
      omega

/-! ## Variable parts -/

def Ty.Returns (t : Ty) : Prop := ∀ bytes : Bytes, (value (t.read bytes)).returns = true

/-- The variable part of a field returns when `byte_ptr` is in bounds. -/
structure Value.Returns (v : Value) (bytes : Bytes) : Prop where
  static : ∀ offset f bytePtr, bytePtr ≤ bytes.length →
    (v.readVariablePart (.static offset) f bytes bytePtr).returns = true
  dynamic : ∀ bytePtr, bytePtr ≤ bytes.length → (v.readInner .dynamic bytes bytePtr).returns = true

theorem Value.Returns.of_bytePtr {v : Value} {bytes : Bytes} (hcow : v.isCow = false)
    (h : ∀ o f bytePtr, bytePtr ≤ bytes.length →
      (v.readVariablePart o f bytes bytePtr).returns = true) : v.Returns bytes where
  static offset := h (.static offset)
  dynamic bytePtr hb := by
    refine Outcome.returns_bind (v.readFixedPart_returns _ bytes bytePtr) fun x hfixed => ?_
    obtain ⟨f, p⟩ := x
    obtain ⟨rfl, hin⟩ := v.readFixedPart_ok hcow f hfixed
    refine h .dynamic f _ ?_
    simp only [InBounds, ByteOffset.get, ByteOffset.next] at hin ⊢
    omega

theorem Value.Returns.cow {v : Value} {bytes : Bytes} (h : v.Returns bytes) :
    Value.Returns (.cow v) bytes where
  static offset f bytePtr hb := by
    rw [readVariablePart_cow]
    refine Outcome.returns_bind ?_ fun _ _ => rfl
    refine Outcome.returns_bind (v.readFixedPart_returns _ bytes bytePtr) fun ⟨f, p⟩ hfixed => ?_
    obtain rfl : p = bytePtr := v.readFixedPart_static hfixed
    exact h.static offset f p hb
  dynamic bytePtr hb := by
    rw [readInner_cow]
    exact Outcome.returns_bind (h.dynamic bytePtr hb) fun _ _ => rfl

theorem Value.Returns.option {v : Value} {bytes : Bytes} (h : v.Returns bytes) :
    Value.Returns (.option v) bytes :=
  .of_bytePtr rfl fun o isSome bytePtr hb => by
    rw [readVariablePart_option]
    split
    · exact Outcome.returns_bind (h.dynamic bytePtr hb) fun _ _ => rfl
    · rfl

theorem suffixFrom_of_le {bytes : Bytes} {a : Nat} (h : a ≤ bytes.length) :
    suffixFrom bytes a = .ok (bytes.drop a) := if_pos h

theorem Ty.Returns.items {t : Ty} (h : t.Returns) (ha : t.Accepted) (hg : t.Guarded)
    (hs : t.Steppable) {bytes : Bytes} {n bytePtr : Nat} (hb : bytePtr ≤ bytes.length) :
    (readItems (fun bytes => value (t.read bytes)) t.byteLen bytes n bytePtr).returns = true := by
  induction n generalizing bytePtr with
  | zero => rfl
  | succ n ih =>
    rw [readItems, suffixFrom_of_le hb, Outcome.bind_ok]
    refine Outcome.returns_bind (h _) fun x hx => ?_
    have hle := Ty.byteLen_le_of_guarded ha hg hs hx
    rw [List.length_drop] at hle
    exact Outcome.returns_bind (ih (by omega)) fun _ _ => rfl

/-! ### Beyond the end -/

section Beyond

variable {bytes : Bytes} {offset bytePtr : Nat}

theorem Value.readInner_err {v : Value} {o : ByteOffset} (hcow : v.isCow = false)
    (h : ¬ InBounds bytes.length (o.get bytePtr) v.fixedBytes) :
    ∃ e, v.readInner o bytes bytePtr = .err e := by
  have hreturns := v.readFixedPart_returns o bytes bytePtr
  rw [readInner]
  cases hfixed : v.readFixedPart o bytes bytePtr with
  | ok f => exact absurd (v.readFixedPart_ok hcow f.1 hfixed).2 h
  | err e => exact ⟨e, rfl⟩
  | panic | hang =>
    rw [hfixed] at hreturns
    cases hreturns

/-- A part that returns, and if it returns a value has not moved `byte_ptr`. -/
def Stays {α : Type} (r : Res (α × Nat)) (bytePtr : Nat) : Prop :=
  r.returns = true ∧ ∀ y p, r = .ok (y, p) → p = bytePtr

theorem Stays.ok {α : Type} (y : α) : Stays (.ok (y, bytePtr)) bytePtr :=
  ⟨rfl, fun _ _ h => (Prod.mk.inj (Outcome.ok.inj h)).2.symm⟩

theorem Stays.of_err {α : Type} {r : Res (α × Nat)} (h : ∃ e, r = .err e) : Stays r bytePtr := by
  obtain ⟨e, rfl⟩ := h
  exact ⟨rfl, fun _ _ h => by cases h⟩

theorem Stays.map {α β : Type} {r : Res (α × Nat)} (h : Stays r bytePtr) (g : α → β) :
    Stays (r >>= fun (x, p) => pure (g x, p)) bytePtr := by
  refine ⟨Outcome.returns_bind h.1 fun _ _ => rfl, fun y p hy => ?_⟩
  obtain ⟨⟨x, p'⟩, hx, hp⟩ := Outcome.bind_eq_ok.mp hy
  cases hp
  exact h.2 x _ hx

theorem Value.readInner_beyond (hb : bytes.length < bytePtr) : (v : Value) →
    v.slicesInside = false → Stays (v.readInner .dynamic bytes bytePtr) bytePtr
  | .emptyTuple, _ => .ok ()
  | .array t length, h => by
    obtain rfl : length = 0 := by simpa [slicesInside] using h
    exact .ok _
  | .cow v, h => by
    rw [readInner_cow]
    exact (v.readInner_beyond hb h).map _
  | .bool, _ | .option _, _ | .string, _ | .vec _, _ => by
    refine .of_err (Value.readInner_err rfl ?_)
    simp only [InBounds, ByteOffset.get, fixedBytes]
    omega
  | .number n, _ => by
    refine .of_err (Value.readInner_err rfl ?_)
    have hpos := n.bytes_pos
    simp only [InBounds, ByteOffset.get, fixedBytes]
    omega

theorem Value.readVariablePart_beyond (hb : bytes.length < bytePtr) : (v : Value) →
    v.slices = false → ∀ f : v.Fixed,
    Stays (v.readVariablePart (.static offset) f bytes bytePtr) bytePtr
  | .emptyTuple, _, _ | .bool, _, _ | .number _, _, _ | .option _, _, false => .ok _
  | .array t length, h, _ => by
    obtain rfl : length = 0 := by simpa [slices] using h
    exact .ok _
  | .option v, h, true => by
    rw [readVariablePart_option, if_pos rfl]
    exact (v.readInner_beyond hb h).map _
  | .cow v, h, _ => by
    rw [readVariablePart_cow]
    refine Stays.map ?_ _
    have hreturns := v.readFixedPart_returns (.static offset) bytes bytePtr
    rw [readInner]
    cases hfixed : v.readFixedPart (.static offset) bytes bytePtr with
    | ok f =>
      obtain ⟨f, p⟩ := f
      obtain rfl : bytePtr = p := (v.readFixedPart_static hfixed).symm
      exact v.readVariablePart_beyond hb h f
    | err e => exact .of_err ⟨e, rfl⟩
    | panic | hang =>
      rw [hfixed] at hreturns
      cases hreturns

/-- The `Cow` with the last of the fixed parts finds it out of bounds. -/
theorem Value.readVariablePart_cow_beyond : (v : Value) → v.isCow = true → ∀ f : v.Fixed,
    ¬ InBounds bytes.length offset v.fixedBytes →
    (v.readVariablePart (.static offset) f bytes bytePtr).returns = true
  | .cow v, _, _, h => by
    rw [readVariablePart_cow]
    refine Outcome.returns_bind ?_ fun _ _ => rfl
    cases hcow : v.isCow with
    | false =>
      obtain ⟨e, he⟩ : ∃ e, v.readInner (.static offset) bytes bytePtr = .err e :=
        Value.readInner_err (o := .static offset) hcow h
      rw [he]
      rfl
    | true =>
      refine Outcome.returns_bind (v.readFixedPart_returns _ _ _) fun ⟨f, p⟩ hfixed => ?_
      obtain rfl : bytePtr = p := (v.readFixedPart_static hfixed).symm
      exact v.readVariablePart_cow_beyond hcow f h

end Beyond

/-! ## Every type -/

/-- Fields in a row, when `byte_ptr` is in bounds, or where it starts and the last fixed part that
of a `Cow`. -/
def Fields.Returns (fs : Fields) (bytes : Bytes) : Prop :=
  ∀ offset f bytePtr,
    bytePtr ≤ bytes.length ∨ fs.cowLast = true ∧ bytePtr = offset + fs.fixedBytes →
    (fs.readVariablePart offset f bytes bytePtr).returns = true

theorem Fields.Returns.cons {v : Value} {fs : Fields} {bytes : Bytes} (ha : v.Accepted)
    (hg : v.Guarded) (hs : v.Steppable) (hlate : fs.cowLast = true → v.slices = false)
    (hv : v.Returns bytes) (hfs : fs.Returns bytes) : Fields.Returns (.cons v fs) bytes := by
  intro offset ⟨f, fixed⟩ bytePtr hstart
  rw [readVariablePart]
  by_cases hb : bytePtr ≤ bytes.length
  · refine Outcome.returns_bind (hv.static offset f bytePtr hb) fun x hx => ?_
    have hp := Value.le_length_of_guarded ha hg hs hx hb
    exact Outcome.returns_bind (hfs _ fixed x.2 (.inl hp)) fun _ _ => rfl
  · obtain ⟨hlast, rfl⟩ := hstart.resolve_left hb
    rw [cowLast] at hlast
    rw [fixedBytes] at hb ⊢
    split at hlast
    · rename_i hzero
      obtain ⟨hcow, hpos⟩ := Bool.and_eq_true_iff.mp hlast
      have hshort : ¬ InBounds bytes.length offset v.fixedBytes := by
        have := bne_iff_ne.mp hpos
        unfold InBounds
        omega
      refine Outcome.returns_bind (v.readVariablePart_cow_beyond hcow f hshort) fun x hx => ?_
      rw [Value.readVariablePart_eq_readWith hs] at hx
      have hexact := (v.exact ha v.anyNames v.distinct_any bytes).static offset f _ x.1 x.2 hx
      exact absurd (hexact.2.1 hcow) hshort
    · obtain ⟨hreturns, hstays⟩ : Stays (v.readVariablePart (.static offset) f bytes _) _ :=
        v.readVariablePart_beyond (Nat.lt_of_not_le hb) (hlate hlast) f
      refine Outcome.returns_bind hreturns fun x hx => ?_
      have hp := hstays x.1 x.2 hx
      exact Outcome.returns_bind (hfs _ fixed x.2 (.inr ⟨hlast, by omega⟩)) fun _ _ => rfl

theorem Fields.Returns.both {fs : Fields} {bytes : Bytes} (h : fs.Returns bytes) {offset : Nat}
    (hoffset : offset ≤ bytes.length) : (fs.readBoth offset bytes).returns = true := by
  refine Outcome.returns_bind (fs.readFixedPart_returns offset bytes) fun f hfixed => ?_
  refine h offset f _ ?_
  cases hlast : fs.cowLast with
  | true => exact .inr ⟨rfl, rfl⟩
  | false =>
    have hin := fs.inBounds_of_readFixedPart (fs.readFixedPart_ok f hfixed) hlast
    unfold InBounds at hin
    exact .inl (by omega)

mutual

theorem Value.returns : (v : Value) → v.Accepted → v.Guarded → v.Steppable → (bytes : Bytes) →
    v.Returns bytes
  | .emptyTuple, _, _, _, _ | .bool, _, _, _, _ | .number _, _, _, _, _ =>
    .of_bytePtr rfl fun _ _ _ _ => rfl
  | .string, _, h, _, _ => h.elim
  | .cow v, ha, h, hs, bytes => .cow (v.returns ha.2.2 h hs bytes)
  | .option v, ha, h, hs, bytes => .option (v.returns ha h hs bytes)
  | .array t length, ha, h, hs, bytes => .of_bytePtr rfl fun _ _ _ hb => by
    rcases h with rfl | h
    · rfl
    · rcases hs with rfl | hs
      · rfl
      · have hs := t.steppable_of_measurable hs
        exact (t.returns ha h hs).items ha h hs hb
  | .vec t, ha, h, hs, bytes => .of_bytePtr rfl fun _ _ _ hb =>
    have hs := t.steppable_of_measurable hs
    Outcome.returns_bind ((t.returns ha h hs).items ha h hs hb) fun _ _ => rfl
  | .delegated t, ha, h, hs, bytes => .of_bytePtr rfl fun _ _ bytePtr hb => by
    rw [Value.readVariablePart, suffixFrom_of_le hb, Outcome.bind_ok]
    exact Outcome.returns_bind (t.returns ha h (t.steppable_of_measurable hs) _) fun _ _ => rfl

theorem Ty.returns : (t : Ty) → t.Accepted → t.Guarded → t.Steppable → t.Returns
  | .lone v, ha, h, hs, bytes => by
    have hfields : Fields.Returns (.cons v .nil) bytes :=
      .cons ha h hs (fun hlast => nomatch hlast) (v.returns ha h hs bytes) fun _ _ _ _ => rfl
    have hboth := hfields.both (Nat.zero_le bytes.length)
    rw [Ty.readBoth_single] at hboth
    show (value ((Ty.lone v).read bytes)).returns = true
    cases hread : (Ty.lone v).read bytes with
    | ok x => rfl
    | err e => rfl
    | panic | hang =>
      rw [hread] at hboth
      cases hboth
  | .struct fs, ha, h, hs, bytes => by
    refine Outcome.returns_bind ?_ fun _ _ => rfl
    rw [Ty.read_struct]
    exact (fs.returns ha h hs bytes).both (Nat.zero_le _)
  | .enum vs, ha, h, hs, bytes => by
    refine Outcome.returns_bind ?_ fun _ _ => rfl
    rw [Ty.read]
    split
    · rename_i hone
      refine vs.returns ha.2.2 h hs bytes _ _ ?_
      rw [Variants.variantLen_of_le_one hone]
      exact Nat.zero_le _
    · rename_i hone
      refine Outcome.returns_bind (readByte_returns bytes 0) fun variantId hid => ?_
      refine vs.returns ha.2.2 h hs bytes _ _ ?_
      rw [Variants.variantLen_eq_one (by omega) ha.2.1]
      exact readByte_ok hid

theorem Fields.returns : (fs : Fields) → fs.Accepted → fs.Guarded → fs.Steppable →
    (bytes : Bytes) → fs.Returns bytes
  | .nil, _, _, _, _ => fun _ _ _ _ => rfl
  | .cons v fs, ha, h, hs, bytes =>
    .cons ha.1 h.1 hs.1 h.2.1 (v.returns ha.1 h.1 hs.1 bytes)
      (fs.returns ha.2 h.2.2 hs.2 bytes)

theorem Variants.returns : (vs : Variants) → vs.Accepted → vs.Guarded → vs.Steppable →
    (bytes : Bytes) → ∀ variantLen variantId, variantLen ≤ bytes.length →
    (vs.read variantLen variantId bytes).returns = true
  | .nil, _, _, _, _, _, _, _ => rfl
  | .cons fs _, ha, h, hs, bytes, variantLen, 0, hlen => by
    rw [Variants.read_zero]
    exact Outcome.returns_bind ((fs.returns ha.1 h.1 hs.1 bytes).both hlen) fun _ _ => rfl
  | .cons _ vs, ha, h, hs, bytes, variantLen, variantId + 1, hlen =>
    Outcome.returns_bind (vs.returns ha.2 h.2 hs.2 bytes variantLen variantId hlen)
      fun _ _ => rfl

end

end MiniUdp.Derive
