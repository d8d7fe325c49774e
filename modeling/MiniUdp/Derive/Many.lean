import MiniUdp.ByteReprExt
import MiniUdp.Derive.Overrun
import MiniUdp.Derive.Within

/-!
# Reading many values of a derived type

The loop of `read_many` goes on as long as there are bytes for another value.
A value takes at least `MIN_BYTE_LEN` bytes, so it ends unless these are none:
then every slice holds such a value, and the loop gets nowhere. Nor does it
when the length of a value is never found. The items end where the slice does,
or before, unless the last of them is longer than what is left
(`Ty.runsMany_iff`).
-/

namespace MiniUdp

open ByteRepr While

/-! ## The loop -/

section Loop

variable {M : Type} [ByteRepr M] {bytes : Bytes}

/-- Where the loop looks for an item. -/
inductive ReadMany.At (M : Type) [ByteRepr M] (bytes : Bytes) : Nat → Prop
  | start : At M bytes 0
  | next {ptr : Nat} {v : M} (hat : At M bytes ptr) (hle : ptr ≤ bytes.length)
      (hread : fromBytes (bytes.drop ptr) = .ok v) : At M bytes (ptr + byteLen v)

/-- What an iteration does. -/
theorem ReadMany.step_ok {s s' : ReadMany M} (h : step bytes s = .ok s') :
    ∃ v, s.ptr ≤ bytes.length ∧ fromBytes (bytes.drop s.ptr) = .ok v ∧
      s' = ⟨s.ptr + byteLen v, s.out ++ [v]⟩ := by
  obtain ⟨rest, hrest, h⟩ := Outcome.bind_eq_ok.mp h
  obtain ⟨v, hv, hs⟩ := Outcome.bind_eq_ok.mp h
  cases hs
  obtain ⟨hle, rfl⟩ := Derive.suffixFrom_eq_ok.mp hrest
  exact ⟨v, hle, hv, rfl⟩

/-- The items read so far end where the loop is, within the bytes if every item is. -/
theorem readMany_sound
    (hfits : ∀ ptr (v : M), ReadMany.At M bytes ptr → fromBytes (bytes.drop ptr) = .ok v →
      byteLen v ≤ (bytes.drop ptr).length) {fuel : Nat} {out : List M} {n : Nat}
    (h : readMany M fuel bytes = some (.ok (out, n))) :
    n ≤ bytes.length ∧ (out.map byteLen).sum = n := by
  obtain ⟨result, hrun, hresult⟩ := Option.map_eq_some_iff.mp h
  obtain ⟨s, rfl, hs⟩ := Outcome.bind_eq_ok.mp hresult
  cases hs
  refine (tryWhile_invariant (P := fun s : ReadMany M => ReadMany.At M bytes s.ptr ∧
    s.ptr ≤ bytes.length ∧ (s.out.map byteLen).sum = s.ptr) (fun s s' hP _ hstep => ?_)
    ⟨.start, Nat.zero_le _, rfl⟩ hrun).1.2
  obtain ⟨hat, -, hsum⟩ := hP
  obtain ⟨v, hle, hv, rfl⟩ := ReadMany.step_ok hstep
  refine ⟨.next hat hle hv, ?_, ?_⟩
  · have hv := hfits s.ptr v hat hv
    rw [List.length_drop] at hv
    show s.ptr + byteLen v ≤ bytes.length
    omega
  · simp [hsum]

/-- A body that has nothing to do with a loop without end. -/
theorem ReadMany.step_ne_hang (hhang : ∀ bytes, (fromBytes bytes : Res M) ≠ .hang)
    (s : ReadMany M) : step bytes s ≠ .hang := by
  unfold step suffixFrom
  split
  · rw [Outcome.bind_ok]
    intro hs
    cases hv : (fromBytes (bytes.drop s.ptr) : Res M) with
    | hang => exact hhang _ hv
    | ok | err | panic => rw [hv] at hs; cases hs
  · exact fun hs => (nomatch hs)

/-- Every item takes a part of the bytes that are left. -/
theorem readMany_ends (hpos : ∀ v : M, 0 < byteLen v)
    (hhang : ∀ bytes, (fromBytes bytes : Res M) ≠ .hang) :
    ∃ r, readMany M (bytes.length + 1) bytes = some r := by
  have hrun : ∃ r, tryWhile (ReadMany.guard bytes) (ReadMany.step bytes) (bytes.length + 1)
      (⟨0, []⟩ : ReadMany M) = some r := by
    apply tryWhile_total (P := fun _ => True) (μ := fun s => bytes.length - s.ptr)
    · exact fun s _ => ReadMany.step_ne_hang hhang s
    · intro s s' _ hguard hstep
      obtain ⟨v, -, -, rfl⟩ := ReadMany.step_ok hstep
      have hlt := (of_decide_eq_true hguard).1
      have hv := hpos v
      refine ⟨trivial, ?_⟩
      show bytes.length - (s.ptr + byteLen v) < bytes.length - s.ptr
      omega
    · trivial
    · show bytes.length - 0 < bytes.length + 1
      omega
  obtain ⟨r, hr⟩ := hrun
  exact ⟨_, congrArg (Option.map _) hr⟩

/-- Without bytes there is nothing to do. -/
theorem readMany_nil (fuel : Nat) : readMany M fuel [] = some (.ok ([], 0)) := by
  have hguard : ReadMany.guard [] (⟨0, []⟩ : ReadMany M) = false :=
    decide_eq_false fun h => Nat.lt_irrefl 0 h.1
  unfold readMany
  rw [tryWhile_done hguard]
  rfl

/-- An item at least as long as the bytes is the only one. -/
theorem readMany_once {v : M} (hbytes : 0 < bytes.length) (hmin : minByteLen M ≤ bytes.length)
    (hread : fromBytes bytes = .ok v) (hlong : bytes.length ≤ byteLen v) :
    readMany M 1 bytes = some (.ok ([v], byteLen v)) := by
  have hguard : ReadMany.guard bytes (⟨0, []⟩ : ReadMany M) = true :=
    decide_eq_true ⟨hbytes, hmin⟩
  have hstep : ReadMany.step bytes ⟨0, []⟩ = .ok (⟨byteLen v, [v]⟩ : ReadMany M) := by
    unfold ReadMany.step
    rw [suffixFrom, if_pos (Nat.zero_le _), List.drop_zero, Outcome.bind_ok, hread,
      Outcome.bind_ok, Nat.zero_add]
    rfl
  have hdone : ReadMany.guard bytes (⟨byteLen v, [v]⟩ : ReadMany M) = false :=
    decide_eq_false fun h => Nat.not_lt.mpr hlong h.1
  unfold readMany
  rw [tryWhile_step hguard hstep, tryWhile_done hdone]
  rfl

end Loop

namespace Derive

open ByteLen Utf8

/-! ## Decoders end -/

theorem sliceOf_ne_hang (bytes : Bytes) (a b : Nat) : sliceOf bytes a b ≠ .hang := by
  unfold sliceOf
  split <;> exact fun h => (nomatch h)

theorem suffixFrom_ne_hang (bytes : Bytes) (a : Nat) : suffixFrom bytes a ≠ .hang := by
  unfold suffixFrom
  split <;> exact fun h => (nomatch h)

theorem runReadItems_ne_hang {α : Type} {fromBytes : Bytes → Res α} {byteLen : α → Res Nat}
    (h : ∀ bytes, fromBytes bytes ≠ .hang) (hlen : ∀ x, byteLen x ≠ .hang) (bytes : Bytes)
    (n bytePtr : Nat) : runReadItems fromBytes byteLen bytes n bytePtr ≠ .hang := by
  induction n generalizing bytePtr with
  | zero =>
    intro h
    cases h
  | succ n ih =>
    apply Outcome.bind_ne_hang (suffixFrom_ne_hang bytes bytePtr)
    intro rest
    apply Outcome.bind_ne_hang (h rest)
    intro item
    apply Outcome.bind_ne_hang (hlen item)
    intro len
    apply Outcome.bind_ne_hang (ih _)
    intro items h
    cases h

theorem value_ne_hang {α : Type} {r : Res (α × Nat)} (h : r ≠ .hang) : value r ≠ .hang :=
  Outcome.bind_ne_hang h fun _ h => (nomatch h)

theorem Value.readFixedPart_ne_hang (v : Value) (o : ByteOffset) (bytes : Bytes) (bytePtr : Nat) :
    v.readFixedPart o bytes bytePtr ≠ .hang :=
  Outcome.ne_hang_of_returns (v.readFixedPart_returns o bytes bytePtr)

theorem Fields.readFixedPart_ne_hang (fs : Fields) (offset : Nat) (bytes : Bytes) :
    fs.readFixedPart offset bytes ≠ .hang :=
  Outcome.ne_hang_of_returns (fs.readFixedPart_returns offset bytes)

theorem typed_ne_hang {α : Type} (x : Option α) : typed x ≠ .hang := by
  cases x <;> exact fun h => (nomatch h)

theorem Value.header_ne_hang (v : Value) (l : Option Local) : v.header l ≠ .hang := by
  cases v with
  | string | vec | option => exact typed_ne_hang _
  | _ => exact fun h => (nomatch h)

theorem Fields.bindFields_ne_hang {names : Nat → String} {s : Scope} : (fs : Fields) → (i : Nat) →
    fs.bindFields names i s ≠ .hang
  | .nil, _ => fun h => (nomatch h)
  | .cons _ fs, i => Outcome.bind_ne_hang (typed_ne_hang _) fun _ =>
    Outcome.bind_ne_hang (fs.bindFields_ne_hang (i + 1)) fun _ h => (nomatch h)

theorem Ty.runByteLen_ne_hang {t : Ty} (h : t.Measurable) (x : t.Val) : t.runByteLen x ≠ .hang := by
  rw [Ty.runByteLen_of_measured (t.measured_of_measurable h x)]
  exact fun h => (nomatch h)

mutual

theorem Value.ne_hang : (v : Value) → v.Steppable → ∀ ns o f bytes bytePtr,
    v.readWith ns o f bytes bytePtr ≠ .hang
  | .emptyTuple, _, _, _, _, _, _ | .bool, _, _, _, _, _, _ | .number _, _, _, _, _, _, _ =>
    fun h => (nomatch h)
  | .string, _, _, _, len, bytes, bytePtr =>
    Outcome.bind_ne_hang (sliceOf_ne_hang bytes bytePtr (bytePtr + len)) fun _ h => (nomatch h)
  | .cow v, hs, ns, o, _, bytes, bytePtr =>
    Outcome.bind_ne_hang (v.readFixedPart_ne_hang o bytes bytePtr) fun _ =>
      Outcome.bind_ne_hang (v.ne_hang hs ns _ _ _ _) fun _ h => (nomatch h)
  | .option v, hs, ns, _, true, bytes, bytePtr =>
    Outcome.bind_ne_hang (v.readFixedPart_ne_hang .dynamic bytes bytePtr) fun _ =>
      Outcome.bind_ne_hang (v.ne_hang hs ns _ _ _ _) fun _ h => (nomatch h)
  | .option _, _, _, _, false, _, _ => fun h => (nomatch h)
  | .array t length, hs, ns, _, _, bytes, bytePtr => by
    rcases hs with rfl | hs
    · exact fun h => (nomatch h)
    · exact runReadItems_ne_hang
        (fun bytes => value_ne_hang (t.ne_hang (t.steppable_of_measurable hs) ns bytes))
        (Ty.runByteLen_ne_hang hs) bytes length bytePtr
  | .vec t, hs, ns, _, len, bytes, bytePtr =>
    Outcome.bind_ne_hang
      (runReadItems_ne_hang
        (fun bytes => value_ne_hang (t.ne_hang (t.steppable_of_measurable hs) ns bytes))
        (Ty.runByteLen_ne_hang hs) bytes len bytePtr)
      fun _ h => (nomatch h)
  | .delegated t, hs, ns, _, _, bytes, bytePtr =>
    Outcome.bind_ne_hang (suffixFrom_ne_hang bytes bytePtr) fun rest =>
      Outcome.bind_ne_hang
        (value_ne_hang (t.ne_hang (t.steppable_of_measurable hs) ns rest)) fun x =>
        Outcome.bind_ne_hang (Ty.runByteLen_ne_hang hs x) fun _ h => (nomatch h)

/-- `from_bytes` ends, unless a value that it steps over is not measured. -/
theorem Ty.ne_hang : (t : Ty) → t.Steppable → ∀ ns bytes, t.runReadNamed ns bytes ≠ .hang
  | .lone v, hs, ns, bytes => by
    rw [Ty.runReadNamed_lone]
    exact Outcome.bind_ne_hang (v.readFixedPart_ne_hang (.static 0) bytes 0) fun _ =>
      v.ne_hang hs ns _ _ _ _
  | .struct fs, hs, (names, ns), bytes =>
    Outcome.bind_ne_hang (fs.readFixedPart_ne_hang 0 bytes) fun _ =>
      Outcome.bind_ne_hang (fs.ne_hang hs ns _ _ _ _ _ _) fun _ =>
        Outcome.bind_ne_hang (fs.bindFields_ne_hang 0) fun _ h => (nomatch h)
  | .enum vs, hs, ns, bytes => by
    unfold Ty.runReadNamed
    split
    · exact vs.ne_hang hs ns _ _ _
    · exact Outcome.bind_ne_hang (Outcome.ne_hang_of_returns (readByte_returns bytes 0))
        fun _ => vs.ne_hang hs ns _ _ _

theorem Fields.ne_hang : (fs : Fields) → fs.Steppable → ∀ ns names i offset s bytes bytePtr,
    fs.runLetVariable ns names i offset s bytes bytePtr ≠ .hang
  | .nil, _, _, _, _, _, _, _, _ => fun h => (nomatch h)
  | .cons v fs, hs, (n, ns), names, i, offset, s, bytes, bytePtr => by
    refine Outcome.bind_ne_hang ?_ fun _ => fs.ne_hang hs.2 ns _ _ _ _ _ _
    cases hfixed : v.isFixed with
    | true =>
      rw [Value.runLetVariable_fixed hfixed]
      exact fun h => (nomatch h)
    | false =>
      rw [v.runLets n hfixed]
      exact Outcome.bind_ne_hang (v.header_ne_hang _) fun _ =>
        Outcome.bind_ne_hang (v.ne_hang hs.1 n _ _ _ _) fun _ h => (nomatch h)

theorem Variants.ne_hang : (vs : Variants) → vs.Steppable → ∀ ns variantLen variantId bytes,
    vs.runReadNamed ns variantLen variantId bytes ≠ .hang
  | .nil, _, _, _, _, _ => fun h => (nomatch h)
  | .cons fs _, hs, ((_, n), _), variantLen, 0, bytes =>
    Outcome.bind_ne_hang (fs.readFixedPart_ne_hang variantLen bytes) fun _ =>
      Outcome.bind_ne_hang (fs.ne_hang hs.1 n _ _ _ _ _ _) fun _ =>
        Outcome.bind_ne_hang (fs.bindFields_ne_hang 0) fun _ h => (nomatch h)
  | .cons _ vs, hs, (_, ns), variantLen, variantId + 1, bytes =>
    Outcome.bind_ne_hang (vs.ne_hang hs.2 ns variantLen variantId bytes) fun _ h => (nomatch h)

end

/-! ## Values without bytes -/

section ZeroSized

variable {usizeMax : Nat}

/-- The field is read at every place as a value that takes nothing there. -/
def Value.ReadsNothing (v : Value) : Prop :=
  ∀ o f (bytes : Bytes) bytePtr, bytePtr ≤ bytes.length →
    ∃ y, v.readVariablePart o f bytes bytePtr = .ok (y, bytePtr) ∧ v.unknownLength y = 0

def Fields.ReadsNothing (fs : Fields) : Prop :=
  ∀ offset (bytes : Bytes), offset ≤ bytes.length →
    ∃ y, fs.readBoth offset bytes = .ok (y, offset) ∧ fs.unknownLength y = 0

def Ty.ReadsNothing (t : Ty) : Prop :=
  ∀ bytes : Bytes, ∃ x, value (t.read bytes) = .ok x ∧ t.byteLen x = 0

theorem Ty.ReadsNothing.items {t : Ty} (h : t.ReadsNothing) (bytes : Bytes) (n : Nat)
    {bytePtr : Nat} (hle : bytePtr ≤ bytes.length) :
    ∃ xs, readItems (fun bytes => value (t.read bytes)) t.byteLen bytes n bytePtr =
      .ok (xs, bytePtr) ∧ (xs.val.map t.byteLen).sum = 0 := by
  induction n with
  | zero => exact ⟨⟨[], rfl⟩, rfl, rfl⟩
  | succ n ih =>
    obtain ⟨x, hx, hzero⟩ := h (bytes.drop bytePtr)
    obtain ⟨xs, hxs, hsum⟩ := ih
    refine ⟨⟨x :: xs.val, congrArg (· + 1) xs.property⟩, ?_, ?_⟩
    · rw [readItems, suffixFrom_of_le hle, Outcome.bind_ok, hx, Outcome.bind_ok, hzero,
        Nat.add_zero bytePtr, hxs]
      rfl
    · rw [List.map_cons, List.sum_cons, hzero, hsum]

theorem Value.ReadsNothing.cow {v : Value} (hfixed : v.fixedBytes = 0) (h : v.ReadsNothing) :
    Value.ReadsNothing (.cow v) := by
  intro o f bytes bytePtr hle
  obtain ⟨f', hf⟩ := v.readFixedPart_of_zero hfixed
  obtain ⟨y, hy, hzero⟩ := h o f' bytes bytePtr hle
  refine ⟨.owned y, ?_, hzero⟩
  rw [readVariablePart_cow, readInner, hf, Outcome.bind_ok]
  show (v.readVariablePart o f' bytes bytePtr >>= _) = _
  rw [hy]
  rfl

theorem Fields.ReadsNothing.cons {v : Value} {fs : Fields} (hv : v.fixedBytes = 0)
    (hvariable : v.ReadsNothing) (hfs : fs.fixedBytes = 0) (hrest : fs.ReadsNothing) :
    Fields.ReadsNothing (.cons v fs) := by
  intro offset bytes hle
  obtain ⟨f, hf⟩ := v.readFixedPart_of_zero hv
  obtain ⟨fixed, hfixed⟩ := fs.readFixedPart_of_zero hfs
  obtain ⟨y, hy, hzero⟩ := hvariable (.static offset) f bytes offset hle
  obtain ⟨ys, hys, hzeros⟩ := hrest offset bytes hle
  rw [readBoth, hfixed, Outcome.bind_ok, hfs, Nat.add_zero] at hys
  refine ⟨(y, ys), ?_, by rw [unknownLength, hzero, hzeros]⟩
  rw [readBoth, readFixedPart, hf, Outcome.bind_ok]
  show ((fs.readFixedPart _ _ >>= _) >>= _) = _
  rw [hfixed, fixedBytes, hv, hfs, Nat.add_zero]
  show (v.readVariablePart _ _ _ _ >>= _) = _
  rw [hy, hv]
  show (fs.readVariablePart _ _ _ _ >>= _) = _
  rw [Nat.add_zero, hys]
  rfl

/-- The bound of an enum is not 0 unless that of a variant is, and the variant has no number. -/
theorem lowestMinLen_eq_zero (hmax : 0 < usizeMax) {l : ByteLen} {variantLen : Nat}
    (h : lowestMinLen usizeMax [l] variantLen = 0) : l.asConstMinLength = 0 := by
  obtain ⟨fixedBytes, unknownMin, unknownMax, unknownLength⟩ := l
  cases unknownMin with
  | none => exact (Nat.add_eq_zero_iff.mp h).1
  | some unknown =>
    obtain ⟨hmin, -⟩ := Nat.add_eq_zero_iff.mp h
    change (if _ then usizeMax else fixedBytes + unknown) = 0 at hmin
    split at hmin
    · omega
    · exact hmin

/-- An enum with more than one variant has a byte for the number of the variant. -/
theorem Ty.minByteLen_enum_pos {fs fs' : Fields} {vs : Variants}
    (h : (Variants.cons fs (.cons fs' vs)).length ≤ 256) :
    0 < (Ty.enum (.cons fs (.cons fs' vs))).minByteLen usizeMax := by
  have hlen := Variants.variantLen_eq_one
    (show 1 < (Variants.cons fs (.cons fs' vs)).length from Nat.le_add_left 2 vs.length) h
  unfold Ty.minByteLen lowestMinLen
  rw [hlen]
  dsimp only
  split <;> exact Nat.succ_pos _

mutual

theorem Value.readsNothing (hmax : 0 < usizeMax) : (v : Value) → v.Accepted → v.fixedBytes = 0 →
    (v.length usizeMax).restMin = 0 → v.ReadsNothing
  | .emptyTuple, _, _, _ => fun _ _ _ _ _ => ⟨(), rfl, rfl⟩
  | .number n, _, h, _ => absurd h n.bytes_pos.ne'
  | .cow v, ha, h, hmin => .cow h (v.readsNothing hmax ha.2.2 h hmin)
  | .array t n, ha, _, hmin => fun _ _ bytes bytePtr hle => by
    rcases Nat.mul_eq_zero.mp hmin with hzero | rfl
    · exact (t.readsNothing hmax ha hzero).items bytes n hle
    · exact ⟨⟨[], rfl⟩, rfl, rfl⟩
  | .delegated t, ha, _, hmin => fun _ _ bytes bytePtr hle => by
    obtain ⟨x, hx, hzero⟩ := t.readsNothing hmax ha hmin (bytes.drop bytePtr)
    refine ⟨x, ?_, hzero⟩
    rw [Value.readVariablePart, suffixFrom_of_le hle, Outcome.bind_ok, hx, Outcome.bind_ok, hzero]
    rfl

/-- If `MIN_BYTE_LEN` is 0, every slice is read as a value that takes no bytes. -/
theorem Ty.readsNothing (hmax : 0 < usizeMax) : (t : Ty) → t.Accepted →
    t.minByteLen usizeMax = 0 → t.ReadsNothing
  | .lone v, ha, h, bytes => by
    rw [Ty.minByteLen, asConstMinLength_eq, v.fixedBytes_length] at h
    obtain ⟨hfixed, hmin⟩ := Nat.add_eq_zero_iff.mp h
    obtain ⟨f, hf⟩ := v.readFixedPart_of_zero hfixed
    obtain ⟨y, hy, hzero⟩ := v.readsNothing hmax ha hfixed hmin (.static 0) f bytes 0
      (Nat.zero_le _)
    refine ⟨y, ?_, by rw [Ty.byteLen, hfixed, hzero]⟩
    apply value_ok
    rw [Ty.read, hf, Outcome.bind_ok, hfixed]
    exact hy
  | .struct fs, ha, h, bytes => by
    rw [Ty.minByteLen, asConstMinLength_eq, fs.fixedBytes_length] at h
    obtain ⟨hfixed, hmin⟩ := Nat.add_eq_zero_iff.mp h
    obtain ⟨y, hy, hzero⟩ := fs.readsNothing hmax ha hfixed hmin 0 bytes (Nat.zero_le _)
    exact ⟨y, value_ok ((Ty.read_struct fs bytes).trans hy), by rw [Ty.byteLen, hfixed, hzero]⟩
  | .enum .nil, ha, _, _ => absurd ha.1 (by decide)
  | .enum (.cons fs .nil), ha, h, bytes => by
    have hmin := lowestMinLen_eq_zero hmax h
    rw [asConstMinLength_eq, fs.fixedBytes_length] at hmin
    obtain ⟨hfixed, hmin⟩ := Nat.add_eq_zero_iff.mp hmin
    obtain ⟨y, hy, hzero⟩ := fs.readsNothing hmax ha.2.2.1 hfixed hmin 0 bytes (Nat.zero_le _)
    have hone : (Variants.cons fs .nil).length ≤ 1 := Nat.le_refl 1
    refine ⟨.inl y, ?_, ?_⟩
    · apply value_ok
      rw [Ty.read, if_pos hone, Variants.variantLen_of_le_one hone, Variants.read_zero, hy]
      rfl
    · show fs.fixedBytes + fs.unknownLength y + _ = 0
      rw [hfixed, hzero, Variants.variantLen_of_le_one hone]
  | .enum (.cons _ (.cons _ _)), ha, h, _ => absurd h (Ty.minByteLen_enum_pos ha.2.1).ne'

theorem Fields.readsNothing (hmax : 0 < usizeMax) : (fs : Fields) → fs.Accepted →
    fs.fixedBytes = 0 → (fs.length usizeMax).restMin = 0 → fs.ReadsNothing
  | .nil, _, _, _ => fun _ _ _ => ⟨(), rfl, rfl⟩
  | .cons v fs, ha, hfixed, hmin => by
    rw [Fields.length, restMin_add] at hmin
    obtain ⟨hv, hfs⟩ := Nat.add_eq_zero_iff.mp hfixed
    obtain ⟨hmin, hmins⟩ := Nat.add_eq_zero_iff.mp hmin
    exact .cons hv (v.readsNothing hmax ha.1 hv hmin) hfs (fs.readsNothing hmax ha.2 hfs hmins)

end

/-- A header is part of the fixed bytes. -/
theorem Value.hasHeader_eq_false {v : Value} (h : v.fixedBytes = 0) : v.hasHeader = false := by
  cases v with
  | string | vec | option => exact nomatch h
  | _ => rfl

theorem Fields.fixedBytes_get? : (fs : Fields) → fs.fixedBytes = 0 → {i : Nat} → {v : Value} →
    fs.get? i = some v → v.fixedBytes = 0
  | .cons _ _, h, 0, _, hi => Option.some.inj hi ▸ (Nat.add_eq_zero_iff.mp h).1
  | .cons _ fs, h, _ + 1, _, hi => fs.fixedBytes_get? (Nat.add_eq_zero_iff.mp h).2 hi

theorem Fields.not_captures_of_zero {fs : Fields} {names : Nat → String} (h : fs.fixedBytes = 0)
    (i j : Nat) : ¬ fs.Captures names i j := by
  rintro ⟨v, w, hi, -, hheader, -⟩
  rw [Value.hasHeader_eq_false (fs.fixedBytes_get? h hi)] at hheader
  cases hheader

mutual

theorem Value.uncaptured_of_zero (hmax : 0 < usizeMax) : (v : Value) → v.Accepted →
    v.fixedBytes = 0 → (v.length usizeMax).restMin = 0 → (ns : v.Names) → v.Distinct ns →
    v.Uncaptured ns
  | .emptyTuple, _, _, _, _, _ => trivial
  | .number n, _, h, _, _, _ => absurd h n.bytes_pos.ne'
  | .cow v, ha, h, hmin, ns, hns => v.uncaptured_of_zero hmax ha.2.2 h hmin ns hns
  | .array t length, ha, _, hmin, ns, hns => by
    rcases Nat.mul_eq_zero.mp hmin with hzero | rfl
    · exact hns.imp_right (t.uncaptured_of_zero hmax ha hzero ns)
    · exact .inl rfl
  | .delegated t, ha, _, hmin, ns, hns => t.uncaptured_of_zero hmax ha hmin ns hns

/-- If `MIN_BYTE_LEN` is 0, there is no header to capture. -/
theorem Ty.uncaptured_of_zero (hmax : 0 < usizeMax) : (t : Ty) → t.Accepted →
    t.minByteLen usizeMax = 0 → (ns : t.Names) → t.Distinct ns → t.Uncaptured ns
  | .lone v, ha, h, ns, hns => by
    rw [Ty.minByteLen, asConstMinLength_eq, v.fixedBytes_length] at h
    obtain ⟨hfixed, hmin⟩ := Nat.add_eq_zero_iff.mp h
    exact v.uncaptured_of_zero hmax ha hfixed hmin ns hns
  | .struct fs, ha, h, (_, ns), hns => by
    rw [Ty.minByteLen, asConstMinLength_eq, fs.fixedBytes_length] at h
    obtain ⟨hfixed, hmin⟩ := Nat.add_eq_zero_iff.mp h
    exact ⟨⟨hns.1, Fields.not_captures_of_zero hfixed⟩,
      fs.uncaptured_of_zero hmax ha hfixed hmin ns hns.2⟩
  | .enum .nil, ha, _, _, _ => absurd ha.1 (by decide)
  | .enum (.cons fs .nil), ha, h, ((_, n), _), hns => by
    have hmin := lowestMinLen_eq_zero hmax h
    rw [asConstMinLength_eq, fs.fixedBytes_length] at hmin
    obtain ⟨hfixed, hmin⟩ := Nat.add_eq_zero_iff.mp hmin
    exact ⟨⟨⟨hns.1.1, Fields.not_captures_of_zero hfixed⟩,
      fs.uncaptured_of_zero hmax ha.2.2.1 hfixed hmin n hns.1.2⟩, trivial⟩
  | .enum (.cons _ (.cons _ _)), ha, h, _, _ => absurd h (Ty.minByteLen_enum_pos ha.2.1).ne'

theorem Fields.uncaptured_of_zero (hmax : 0 < usizeMax) : (fs : Fields) → fs.Accepted →
    fs.fixedBytes = 0 → (fs.length usizeMax).restMin = 0 → (ns : fs.Names) →
    fs.DistinctInside ns → fs.Uncaptured ns
  | .nil, _, _, _, _, _ => trivial
  | .cons v fs, ha, hfixed, hmin, (n, ns), hns => by
    rw [Fields.length, restMin_add] at hmin
    obtain ⟨hv, hfs⟩ := Nat.add_eq_zero_iff.mp hfixed
    obtain ⟨hmin, hmins⟩ := Nat.add_eq_zero_iff.mp hmin
    exact ⟨v.uncaptured_of_zero hmax ha.1 hv hmin n hns.1,
      fs.uncaptured_of_zero hmax ha.2 hfs hmins ns hns.2⟩

end

end ZeroSized

/-! ## Slices shorter than `MIN_BYTE_LEN` -/

/-- A part that got from `bytePtr` to `r` over at least `m` bytes, which are there. -/
structure Spent (len bytePtr r m : Nat) : Prop where
  le : bytePtr + m ≤ r
  bound : m = 0 ∨ bytePtr + m ≤ len

theorem Spent.zero {len bytePtr r : Nat} (h : bytePtr ≤ r) : Spent len bytePtr r 0 :=
  ⟨h, .inl rfl⟩

theorem Spent.append {len bytePtr p r m m' : Nat} (h : Spent len bytePtr p m)
    (h' : Spent len p r m') : Spent len bytePtr r (m + m') := by
  obtain ⟨hle, hbound⟩ := h
  obtain ⟨hle', hbound'⟩ := h'
  exact ⟨by omega, by omega⟩

section Short

variable (usizeMax : Nat)

/-- No slice that is shorter than `MIN_BYTE_LEN` is read. -/
def Ty.Needs (t : Ty) (ns : t.Names) : Prop :=
  ∀ (bytes : Bytes) (x : t.Val), t.fromBytesNamed ns bytes = .ok x →
    t.minByteLen usizeMax ≤ bytes.length

variable {usizeMax}

theorem Ty.Needs.spent {t : Ty} {ns : t.Names} (h : t.Needs usizeMax ns) {bytes rest : Bytes}
    {bytePtr len : Nat} {x : t.Val} (hrest : suffixFrom bytes bytePtr = .ok rest)
    (hx : value (t.runReadNamed ns rest) = .ok x) (hlen : t.runByteLen x = .ok len) :
    Spent bytes.length bytePtr (bytePtr + len) (t.minByteLen usizeMax) := by
  obtain ⟨hb, rfl⟩ := suffixFrom_eq_ok.mp hrest
  obtain ⟨-, rfl⟩ := (t.runByteLen_returnsIff x).of_eq_ok hlen
  have hneeds := h _ x hx
  rw [List.length_drop] at hneeds
  exact ⟨Nat.add_le_add_left (t.minByteLen_le usizeMax x) _, .inr (by omega)⟩

theorem Ty.Needs.items {t : Ty} {ns : t.Names} (h : t.Needs usizeMax ns) {bytes : Bytes}
    {n bytePtr r : Nat} {xs : { xs : List t.Val // xs.length = n }}
    (hread : runReadItems (fun bytes => value (t.runReadNamed ns bytes)) t.runByteLen bytes n
      bytePtr = .ok (xs, r)) : Spent bytes.length bytePtr r (t.minByteLen usizeMax * n) := by
  induction n generalizing bytePtr with
  | zero =>
    cases hread
    exact .zero (Nat.le_refl _)
  | succ n ih =>
    obtain ⟨rest, hrest, hread⟩ := Outcome.bind_eq_ok.mp hread
    obtain ⟨x, hx, hread⟩ := Outcome.bind_eq_ok.mp hread
    obtain ⟨len, hlen, hread⟩ := Outcome.bind_eq_ok.mp hread
    obtain ⟨⟨ys, r'⟩, hys, hr⟩ := Outcome.bind_eq_ok.mp hread
    cases hr
    rw [Nat.mul_succ, Nat.add_comm]
    exact (h.spent hrest hx hlen).append (ih hys)

def Fields.Spends (usizeMax : Nat) (fs : Fields) (ns : fs.Names) (bytes : Bytes) : Prop :=
  ∀ offset f bytePtr y r, fs.readWith ns offset f bytes bytePtr = .ok (y, r) →
    Spent bytes.length bytePtr r (fs.length usizeMax).restMin

theorem Fields.Spends.cons {v : Value} {fs : Fields} {n : v.Names} {ns : fs.Names} {bytes : Bytes}
    (hv : ∀ offset f bytePtr y r,
      v.readWith n (.static offset) f bytes bytePtr = .ok (y, r) →
      Spent bytes.length bytePtr r (v.length usizeMax).restMin)
    (hfs : fs.Spends usizeMax ns bytes) : Fields.Spends usizeMax (.cons v fs) (n, ns) bytes := by
  intro offset ⟨f, rest⟩ bytePtr y r hread
  obtain ⟨⟨x, p⟩, hx, hread⟩ := Outcome.bind_eq_ok.mp hread
  obtain ⟨⟨xs, p'⟩, hxs, hy⟩ := Outcome.bind_eq_ok.mp hread
  cases hy
  rw [length, restMin_add]
  exact (hv offset f bytePtr x p hx).append (hfs _ rest p xs r hxs)

theorem Fields.Spends.both {fs : Fields} {ns : fs.Names} {bytes : Bytes}
    (h : fs.Spends usizeMax ns bytes) (he : fs.Exact ns bytes) {names : Nat → String}
    (hd : fs.Distinct names) {offset r : Nat} {x : fs.Val}
    (hread : fs.runReadBoth ns names offset bytes = .ok (x, r)) (hoffset : offset ≤ bytes.length) :
    offset + (fs.length usizeMax).asConstMinLength ≤ bytes.length := by
  obtain ⟨-, hin, -, -⟩ := he.both hd hread
  obtain ⟨f, g, ys, -, -, hvariable, -⟩ := Fields.runReadBoth_ok hd hread
  have hbound := (h offset g _ ys r hvariable).bound
  rw [asConstMinLength_eq, fs.fixedBytes_length]
  unfold InBounds at hin
  omega

mutual

theorem Value.spent : (v : Value) → v.Accepted → (ns : v.Names) → v.Distinct ns →
    ∀ (bytes : Bytes) offset f bytePtr y r,
    v.readWith ns (.static offset) f bytes bytePtr = .ok (y, r) →
    Spent bytes.length bytePtr r (v.length usizeMax).restMin
  | .emptyTuple, _, _, _, _, _, _, _, _, _, hread | .bool, _, _, _, _, _, _, _, _, _, hread
  | .number _, _, _, _, _, _, _, _, _, _, hread => by
    cases hread
    exact .zero (Nat.le_refl _)
  | .string, h, ns, hns, bytes, offset, f, bytePtr, y, r, hread =>
    .zero ((Value.exact .string h ns hns bytes).static offset f bytePtr y r hread).1.start
  | .option v, h, ns, hns, bytes, offset, f, bytePtr, y, r, hread =>
    .zero ((Value.exact (.option v) h ns hns bytes).static offset f bytePtr y r hread).1.start
  | .vec t, h, ns, hns, bytes, offset, f, bytePtr, y, r, hread =>
    .zero ((Value.exact (.vec t) h ns hns bytes).static offset f bytePtr y r hread).1.start
  | .cow v, h, ns, hns, bytes, offset, f, bytePtr, y, r, hread => by
    rw [Value.readWith_cow] at hread
    obtain ⟨⟨y', r'⟩, hinner, hy⟩ := Outcome.bind_eq_ok.mp hread
    cases hy
    obtain ⟨⟨f', p⟩, hfixed, hvariable⟩ := Outcome.bind_eq_ok.mp hinner
    obtain rfl : p = bytePtr := v.readFixedPart_static hfixed
    exact v.spent h.2.2 ns hns bytes offset f' p y' _ hvariable
  | .array t length, h, ns, hns, _, _, _, _, _, _, hread => by
    rcases hns with rfl | hns
    · cases hread
      exact .zero (Nat.le_refl _)
    · exact Ty.Needs.items (t.needs h ns hns) hread
  | .delegated t, h, ns, hns, bytes, _, _, _, y, r, hread => by
    obtain ⟨rest, hrest, hread⟩ := Outcome.bind_eq_ok.mp hread
    obtain ⟨x, hx, hread⟩ := Outcome.bind_eq_ok.mp hread
    obtain ⟨len, hlen, hy⟩ := Outcome.bind_eq_ok.mp hread
    cases hy
    exact Ty.Needs.spent (t.needs h ns hns) hrest hx hlen

/-- No value is read from less than `MIN_BYTE_LEN` bytes. -/
theorem Ty.needs : (t : Ty) → t.Accepted → (ns : t.Names) → t.Distinct ns → t.Needs usizeMax ns
  | .lone v, h, ns, hns, bytes, x, hread => by
    obtain ⟨⟨y, n⟩, hread, hy⟩ := Outcome.bind_eq_ok.mp hread
    cases hy
    rw [Ty.runReadNamed_lone] at hread
    obtain ⟨⟨f, p⟩, hfixed, hvariable⟩ := Outcome.bind_eq_ok.mp hread
    have hin := (v.exact h ns hns bytes).inBounds hfixed hvariable
    have hbound := (v.spent h ns hns bytes 0 f _ x n hvariable).bound
    rw [Ty.minByteLen, asConstMinLength_eq, v.fixedBytes_length]
    unfold InBounds at hin
    omega
  | .struct fs, h, (names, ns), hns, bytes, x, hread => by
    obtain ⟨⟨y, n⟩, hread, hy⟩ := Outcome.bind_eq_ok.mp hread
    cases hy
    rw [Ty.runReadNamed_struct] at hread
    have hneeds := (fs.spends h ns hns.2 bytes).both (fs.exact h ns hns.2 bytes) hns.1 hread
      (Nat.zero_le _)
    rwa [Nat.zero_add] at hneeds
  | .enum vs, h, ns, hns, bytes, x, hread => by
    obtain ⟨⟨y, n⟩, hread, hy⟩ := Outcome.bind_eq_ok.mp hread
    cases hy
    have hvariant : vs.variantLen ≤ bytes.length ∧
        ∃ variantId, vs.runReadNamed ns vs.variantLen variantId bytes = .ok (x, n) := by
      rw [Ty.runReadNamed] at hread
      by_cases hone : vs.length ≤ 1
      · rw [if_pos hone] at hread
        rw [Variants.variantLen_of_le_one hone] at hread ⊢
        exact ⟨Nat.zero_le _, _, hread⟩
      · rw [if_neg hone] at hread
        obtain ⟨variantId, hid, hread⟩ := Outcome.bind_eq_ok.mp hread
        refine ⟨?_, _, hread⟩
        rw [Variants.variantLen_eq_one (by omega) h.2.1]
        exact readByte_ok hid
    obtain ⟨hle, variantId, hread⟩ := hvariant
    obtain ⟨l, hl, hneeds⟩ := vs.needs h.2.2 ns hns bytes vs.variantLen variantId x n hread hle
    have hmin := lowestMinLen_le usizeMax hl vs.variantLen
    rw [Ty.minByteLen]
    omega

theorem Fields.spends : (fs : Fields) → fs.Accepted → (ns : fs.Names) → fs.DistinctInside ns →
    (bytes : Bytes) → fs.Spends usizeMax ns bytes
  | .nil, _, _, _, _ => fun _ _ _ _ _ hread => by
    cases hread
    exact .zero (Nat.le_refl _)
  | .cons v fs, h, (n, ns), hns, bytes =>
    .cons (v.spent h.1 n hns.1 bytes) (fs.spends h.2 ns hns.2 bytes)

theorem Variants.needs : (vs : Variants) → vs.Accepted → (ns : vs.Names) → vs.Distinct ns →
    ∀ (bytes : Bytes) variantLen variantId x r,
    vs.runReadNamed ns variantLen variantId bytes = .ok (x, r) → variantLen ≤ bytes.length →
    ∃ l ∈ vs.lengths usizeMax, variantLen + l.asConstMinLength ≤ bytes.length
  | .nil, _, _, _, _, _, _, x, _, _, _ => x.elim
  | .cons fs vs, h, ((names, n), _), hns, bytes, variantLen, 0, x, r, hread, hle => by
    rw [Variants.runReadNamed_zero] at hread
    obtain ⟨⟨y, p⟩, hboth, hy⟩ := Outcome.bind_eq_ok.mp hread
    cases hy
    exact ⟨_, List.mem_cons_self, (fs.spends h.1 n hns.1.2 bytes).both
      (fs.exact h.1 n hns.1.2 bytes) hns.1.1 hboth hle⟩
  | .cons _ vs, h, (_, ns), hns, bytes, variantLen, variantId + 1, x, r, hread, hle => by
    obtain ⟨⟨y, p⟩, hvs, hy⟩ := Outcome.bind_eq_ok.mp hread
    cases hy
    obtain ⟨l, hl, hneeds⟩ := vs.needs h.2 ns hns.2 bytes variantLen variantId y _ hvs hle
    exact ⟨l, List.mem_cons_of_mem _ hl, hneeds⟩

end

end Short

/-! ## `read_many` on derived types -/

/-- The impl that the macros generate for a type with these names, with `usizeMax` for `usize::MAX`
and the lengths that `byte_len` finds. -/
@[reducible] def Ty.byteRepr (usizeMax : Nat) (t : Ty) (haccepted : t.Accepted) (ns : t.Names) :
    ByteRepr t.Val where
  minByteLen := t.minByteLen usizeMax
  maxByteLen := t.maxByteLen usizeMax
  byteLen := t.byteLen
  writeToBytes := t.writeToBytes
  fromBytes := t.fromBytesNamed ns
  length_writeToBytes x bytes := (t.within haccepted x bytes.length bytes rfl).1

section ReadsMany

variable (usizeMax : Nat) (t : Ty) (haccepted : t.Accepted) (ns : t.Names)

/-- `read_many` of the type, with the lengths that `byte_len` finds. -/
def Ty.readMany (fuel : Nat) (bytes : Bytes) : Option (Res (List t.Val × Nat)) :=
  @MiniUdp.readMany t.Val (t.byteRepr usizeMax haccepted ns) fuel bytes

/-- Where `read_many` looks for an item, every string is as long as the bytes it was made of. -/
def Ty.KeptMany (bytes : Bytes) : Prop :=
  ∀ ptr, @ReadMany.At t.Val (t.byteRepr usizeMax haccepted ns) bytes ptr →
    Kept (t.trace ns (bytes.drop ptr))

end ReadsMany

section RunsMany

variable (usizeMax : Nat) (t : Ty) (ns : t.Names)

/-- The condition of the loop. -/
def Ty.manyGuard (bytes : Bytes) (s : ReadMany t.Val) : Bool :=
  decide (s.ptr < bytes.length ∧ t.minByteLen usizeMax ≤ bytes.length - s.ptr)

/-- The body of the loop. -/
def Ty.manyStep (bytes : Bytes) (s : ReadMany t.Val) : Res (ReadMany t.Val) := do
  let rest ← suffixFrom bytes s.ptr
  let v ← t.fromBytesNamed ns rest
  let len ← t.runByteLen v
  pure ⟨s.ptr + len, s.out ++ [v]⟩

/-- `read_many` of the type, run for at most `fuel` iterations of its loop. -/
def Ty.runReadMany (fuel : Nat) (bytes : Bytes) : Option (Res (List t.Val × Nat)) :=
  (tryWhile (t.manyGuard usizeMax bytes) (t.manyStep ns bytes) fuel ⟨0, []⟩).map fun result => do
    let s ← result
    pure (s.out, s.ptr)

/-- `read_many` ends, and when it returns items they take the bytes read, which are there. -/
structure Ty.RunsMany (bytes : Bytes) : Prop where
  ends : ∃ fuel r, t.runReadMany usizeMax ns fuel bytes = some r
  sound : ∀ fuel items n, t.runReadMany usizeMax ns fuel bytes = some (.ok (items, n)) →
    n ≤ bytes.length ∧ sumLengths t.runByteLen items = .ok n

variable {usizeMax t ns}

/-- A loop whose first item takes no bytes, or whose length is not found, gets nowhere. -/
theorem Ty.runReadMany_eq_none (hns : t.Uncaptured ns) {bytes : Bytes} {x : t.Val}
    (hpos : 0 < bytes.length) (hmin : t.minByteLen usizeMax ≤ bytes.length)
    (hread : value (t.read bytes) = .ok x) (hx : t.Measured x → t.byteLen x = 0) (fuel : Nat) :
    t.runReadMany usizeMax ns fuel bytes = none := by
  have hrun : tryWhile (t.manyGuard usizeMax bytes) (t.manyStep ns bytes) fuel
      (⟨0, []⟩ : ReadMany t.Val) = none := by
    apply tryWhile_never (P := fun s => s.ptr = 0)
    · rintro ⟨ptr, out⟩ (rfl : ptr = 0)
      refine ⟨decide_eq_true ⟨hpos, hmin⟩, ?_⟩
      rw [manyStep, suffixFrom_of_le (Nat.zero_le _), List.drop_zero, Outcome.bind_ok,
        Ty.fromBytesNamed, t.runReadNamed_eq ns hns]
      rcases (t.runRead_runs bytes).below with hhang | heq
      · rw [hhang]
        exact .inl rfl
      · rw [heq, hread, Outcome.bind_ok]
        by_cases hmeasured : t.Measured x
        · rw [Ty.runByteLen_of_measured hmeasured, hx hmeasured]
          exact .inr ⟨_, rfl, rfl⟩
        · rw [(t.runByteLen_returnsIff x).hang hmeasured]
          exact .inl rfl
    · rfl
  unfold Ty.runReadMany
  rw [hrun]
  rfl

variable (usizeMax ns) in
/-- On a type whose values are all measured `byte_len` finds every length. -/
theorem Ty.runReadMany_eq (haccepted : t.Accepted) (ht : t.Measurable) (fuel : Nat)
    (bytes : Bytes) :
    t.runReadMany usizeMax ns fuel bytes = t.readMany usizeMax haccepted ns fuel bytes := by
  let _ := t.byteRepr usizeMax haccepted ns
  have hstep : t.manyStep ns bytes = ReadMany.step bytes := by
    funext s
    unfold Ty.manyStep ReadMany.step
    refine bind_congr fun rest => bind_congr fun v => ?_
    rw [Ty.runByteLen_of_measured (t.measured_of_measurable ht v)]
    rfl
  unfold Ty.runReadMany
  rw [hstep]
  rfl

theorem Ty.runsMany_of_fits (haccepted : t.Accepted) (ht : t.Measurable) {bytes : Bytes}
    (hmin : 0 < t.minByteLen usizeMax ∨ bytes = [])
    (hfits : ∀ ptr x, @ReadMany.At t.Val (t.byteRepr usizeMax haccepted ns) bytes ptr →
      t.fromBytesNamed ns (bytes.drop ptr) = .ok x → t.byteLen x ≤ (bytes.drop ptr).length) :
    t.RunsMany usizeMax ns bytes := by
  let _ := t.byteRepr usizeMax haccepted ns
  have heq := fun fuel => Ty.runReadMany_eq usizeMax ns haccepted ht fuel bytes
  refine ⟨?_, fun fuel items n h => ?_⟩
  · rcases hmin with hmin | rfl
    · have hpos : ∀ x : t.Val, 0 < t.byteLen x := fun x =>
        Nat.lt_of_lt_of_le hmin (t.minByteLen_le usizeMax x)
      have hends := t.ne_hang (t.steppable_of_measurable ht) ns
      obtain ⟨r, hr⟩ := readMany_ends (M := t.Val) hpos fun bytes => value_ne_hang (hends bytes)
      exact ⟨_, r, (heq _).trans hr⟩
    · exact ⟨0, _, (heq 0).trans (readMany_nil (M := t.Val) 0)⟩
  · obtain ⟨hle, hsum⟩ := readMany_sound (M := t.Val) hfits ((heq fuel).symm.trans h)
    have hlens := sumLengths_returnsIff fun x (_ : x ∈ items) => t.runByteLen_returnsIff x
    exact ⟨hle, hsum ▸ hlens.ok fun x _ => t.measured_of_measurable ht x⟩

/-- What is read with every string kept is not longer than its bytes. -/
theorem Ty.byteLen_le_of_kept (haccepted : t.Accepted) (hns : t.Distinct ns) (ht : t.Measurable)
    {bytes : Bytes} {x : t.Val} (hread : t.fromBytesNamed ns bytes = .ok x)
    (hkept : Kept (t.trace ns bytes)) : t.byteLen x ≤ bytes.length := by
  obtain ⟨⟨y, n⟩, hrun, heq⟩ := Outcome.bind_eq_ok.mp hread
  obtain rfl : y = x := Outcome.ok.inj heq
  obtain ⟨-, htake, hiff⟩ := t.exact haccepted ns hns bytes y n hrun
  have hconsuming := (hiff (t.measured_of_measurable ht y)).mp hkept
  obtain ⟨-, hle, hn⟩ := (Ty.runConsumes_iff hrun htake).mp
    (hconsuming t ns bytes (t.call_mem_trace ns bytes))
  exact hn ▸ hle

theorem Ty.RunsMany.min_pos (haccepted : t.Accepted) (hns : t.Distinct ns) (hmax : 0 < usizeMax)
    {bytes : Bytes} (h : t.RunsMany usizeMax ns bytes) :
    0 < t.minByteLen usizeMax ∨ bytes = [] := by
  by_contra hno
  obtain ⟨hmin, hbytes⟩ := not_or.mp hno
  obtain hmin := Nat.eq_zero_of_not_pos hmin
  obtain ⟨x, hx, hzero⟩ := t.readsNothing hmax haccepted hmin bytes
  obtain ⟨fuel, r, hr⟩ := h.ends
  have hnone := Ty.runReadMany_eq_none (t.uncaptured_of_zero hmax haccepted hmin ns hns)
    (List.length_pos_iff.mpr hbytes) (hmin.le.trans (Nat.zero_le _)) hx (fun _ => hzero) fuel
  cases hnone.symm.trans hr

/-- A value whose length is never found keeps the loop from ending. -/
theorem Ty.measurable_of_runsMany (haccepted : t.Accepted) (hns : t.Uncaptured ns)
    (hmin : 0 < t.minByteLen usizeMax) (h : ∀ bytes, t.RunsMany usizeMax ns bytes) :
    t.Measurable := by
  by_contra hno
  obtain ⟨x, hsmall, hx⟩ := t.exists_unmeasured haccepted hno
  have hread := t.reads haccepted x hsmall []
  rw [List.append_nil] at hread
  have hle : t.minByteLen usizeMax ≤ (t.encode x).length :=
    (t.length_encode x).symm ▸ t.minByteLen_le usizeMax x
  obtain ⟨fuel, r, hr⟩ := (h (t.encode x)).ends
  rw [Ty.runReadMany_eq_none hns (by omega) hle (value_ok hread) fun hm =>
    absurd ((t.measured_owned x).mp hm) hx] at hr
  cases hr

theorem Ty.not_overruns_of_runsMany (haccepted : t.Accepted) (hns : t.Uncaptured ns)
    (ht : t.Measurable) (hmin : 0 < t.minByteLen usizeMax)
    (h : ∀ bytes, t.RunsMany usizeMax ns bytes) : ¬ t.Overruns := by
  let _ := t.byteRepr usizeMax haccepted ns
  intro ho
  obtain ⟨u, x, n, hread, hlong⟩ := t.exists_overrun haccepted ho
  have hnamed := Ty.fromBytesNamed_of_read hread (t.measured_of_measurable ht x) hns
  have hneeds : t.minByteLen usizeMax ≤ u.length :=
    t.needs haccepted ns (t.distinct_of_uncaptured ns hns) u x hnamed
  have honce := readMany_once (M := t.Val) (Nat.lt_of_lt_of_le hmin hneeds) hneeds hnamed
    (Nat.le_of_lt hlong)
  have hle := ((h u).sound 1 [x] (t.byteLen x)
    ((Ty.runReadMany_eq usizeMax ns haccepted ht 1 u).trans honce)).1
  exact absurd hle (Nat.not_le.mpr hlong)

/-- `read_many` is right about every slice for the types with a positive `MIN_BYTE_LEN` that do not
overrun and whose values are all measured, and if no header is captured for just these. Of the types
whose values are all measured, on a slice whose strings keep their lengths, it is right for those
with a positive `MIN_BYTE_LEN`, and for the others on no bytes only. -/
theorem Ty.runsMany_iff (hmax : 0 < usizeMax) (t : Ty) (haccepted : t.Accepted) (ns : t.Names)
    (hns : t.Distinct ns) :
    (0 < t.minByteLen usizeMax ∧ ¬ t.Overruns ∧ t.Measurable →
      ∀ bytes, t.RunsMany usizeMax ns bytes) ∧
    (t.Uncaptured ns → (∀ bytes, t.RunsMany usizeMax ns bytes) →
      0 < t.minByteLen usizeMax ∧ ¬ t.Overruns ∧ t.Measurable) ∧
    (t.Measurable → ∀ bytes, t.KeptMany usizeMax haccepted ns bytes →
      (t.RunsMany usizeMax ns bytes ↔ 0 < t.minByteLen usizeMax ∨ bytes = [])) := by
  refine ⟨fun ⟨hmin, hno, ht⟩ bytes => ?_, fun huncaptured h => ?_,
    fun ht bytes hkept => ⟨?_, fun hmin => ?_⟩⟩
  · exact Ty.runsMany_of_fits haccepted ht (.inl hmin) fun _ x _ hread =>
      t.fits haccepted ns hns hno _ x hread
  · have hmin := ((h [0]).min_pos haccepted hns hmax).resolve_right (List.cons_ne_nil _ _)
    have ht := Ty.measurable_of_runsMany haccepted huncaptured hmin h
    exact ⟨hmin, Ty.not_overruns_of_runsMany haccepted huncaptured ht hmin h, ht⟩
  · exact fun h => h.min_pos haccepted hns hmax
  · exact Ty.runsMany_of_fits haccepted ht hmin fun ptr x hat hread =>
      Ty.byteLen_le_of_kept haccepted hns ht hread (hkept ptr hat)

/-- Three bytes hold one `u16`. -/
theorem Ty.runsMany_iff_u16 :
    (Ty.lone (.number .u16)).RunsMany (2 ^ 64 - 1) () [1, 2, 3] :=
  (Ty.runsMany_iff (by decide) (.lone (.number .u16)) trivial () trivial).1
    ⟨by decide, id, trivial⟩ [1, 2, 3]

/-- One byte is enough to read `()` for ever, a string of one byte that is no UTF-8 takes seven of
five, and the length of the first `Cow<u16>` is never found. With the names `a` and `a_fixed` it is
the number that tells how long the string is. -/
theorem Ty.readMany_unit_string :
    ((Ty.lone .emptyTuple).Accepted ∧
      (∀ fuel, (Ty.lone .emptyTuple).runReadMany (2 ^ 64 - 1) () fuel [0] = none) ∧
      ¬ (Ty.lone .emptyTuple).RunsMany (2 ^ 64 - 1) () [0]) ∧
    ((Ty.lone .string).Accepted ∧
      (Ty.lone .string).runReadMany (2 ^ 64 - 1) () 1 [1, 0, 0, 0, 0xFF] =
        some (.ok (["\uFFFD"], 7)) ∧
      ¬ (Ty.lone .string).RunsMany (2 ^ 64 - 1) () [1, 0, 0, 0, 0xFF]) ∧
    (cowNumber.Accepted ∧
      (∀ fuel, cowNumber.runReadMany (2 ^ 64 - 1) () fuel [1, 0, 2, 0] = none) ∧
      ¬ cowNumber.RunsMany (2 ^ 64 - 1) () [1, 0, 2, 0]) ∧
    (Ty.struct clash).Accepted ∧
    (Ty.struct clash).runReadMany (2 ^ 64 - 1) (clashNames, (), (), ()) 1
      [0, 0, 0, 0, 1, 0, 0, 0, 0, 0, 0, 0, 0xFF] = some (.ok ([("\uFFFD", 1#64, ())], 15)) ∧
    ¬ (Ty.struct clash).RunsMany (2 ^ 64 - 1) (clashNames, (), (), ())
      [0, 0, 0, 0, 1, 0, 0, 0, 0, 0, 0, 0, 0xFF] := by
  have hunit : ∀ fuel, (Ty.lone .emptyTuple).runReadMany (2 ^ 64 - 1) () fuel [0] = none :=
    fun fuel => Ty.runReadMany_eq_none (t := .lone .emptyTuple) (x := ()) trivial (by decide)
      (Nat.zero_le _) rfl (fun _ => rfl) fuel
  have hstring : (Ty.lone .string).runReadMany (2 ^ 64 - 1) () 1 [1, 0, 0, 0, 0xFF] =
      some (.ok (["\uFFFD"], 7)) := by decide +kernel
  have hcow : ∀ fuel, cowNumber.runReadMany (2 ^ 64 - 1) () fuel [1, 0, 2, 0] = none :=
    fun fuel => Ty.runReadMany_eq_none (t := cowNumber) (x := .owned 1#16) trivial (by decide)
      (by decide) rfl (fun h => absurd h.1 (by decide)) fuel
  have hclash : (Ty.struct clash).runReadMany (2 ^ 64 - 1) (clashNames, (), (), ()) 1
      [0, 0, 0, 0, 1, 0, 0, 0, 0, 0, 0, 0, 0xFF] = some (.ok ([("\uFFFD", 1#64, ())], 15)) := by
    decide +kernel
  refine ⟨⟨trivial, hunit, fun h => ?_⟩, ⟨trivial, hstring, fun h => ?_⟩,
    ⟨⟨by decide, by decide, trivial⟩, hcow, fun h => ?_⟩, ⟨trivial, trivial, trivial⟩, hclash,
    fun h => ?_⟩
  · obtain ⟨fuel, r, hr⟩ := h.ends
    cases (hunit fuel).symm.trans hr
  · exact absurd (h.sound 1 _ 7 hstring).1 (by decide)
  · obtain ⟨fuel, r, hr⟩ := h.ends
    cases (hcow fuel).symm.trans hr
  · exact absurd (h.sound 1 _ 15 hclash).1 (by decide)

end RunsMany

end Derive

end MiniUdp
