import MiniUdp.Derive.Fits
import MiniUdp.Derive.Panic

/-!
# Values longer than their bytes

A type that overruns has a slice that is read as a value longer than all of it
(`Ty.exists_overrun`).
-/

namespace MiniUdp.Derive

open Utf8

/-! ## Bytes a type overruns -/

/-- With `h` as its fixed part and `u` as the rest the field is read as a value that is longer than
both, at the end of the bytes or anywhere. -/
structure Value.OverrunsOn (v : Value) (last : Bool) (h u : Bytes) (f : v.Fixed) : Prop where
  length : h.length = v.fixedBytes
  fixed : ∀ o bytes bytePtr, Segment bytes (o.get bytePtr) h →
    v.readFixedPart o bytes bytePtr =
      .ok (f, if v.isCow then bytePtr else o.next v.fixedBytes bytePtr)
  static : ∀ bytes offset bytePtr, Segment bytes offset h → Segment bytes bytePtr u →
    (last = true → bytes.length = bytePtr + u.length) →
    ∃ y r, v.readVariablePart (.static offset) f bytes bytePtr = .ok (y, r) ∧
      u.length < v.unknownLength y ∧ (last = false → r = bytePtr + u.length)
  dynamic : ∀ bytes bytePtr, Segment bytes bytePtr (h ++ u) →
    (last = true → bytes.length = bytePtr + (h ++ u).length) →
    ∃ y r, v.readInner .dynamic bytes bytePtr = .ok (y, r) ∧
      u.length < v.unknownLength y ∧ (last = false → r = bytePtr + (h ++ u).length)

theorem Value.OverrunsOn.of_bytePtr {v : Value} {last : Bool} {h u : Bytes} {f : v.Fixed}
    (hcow : v.isCow = false) (hlen : h.length = v.fixedBytes)
    (hfixed : ∀ o bytes bytePtr, Segment bytes (o.get bytePtr) h →
      v.readFixedPart o bytes bytePtr = .ok (f, o.next v.fixedBytes bytePtr))
    (hread : ∀ o bytes bytePtr, Segment bytes bytePtr u →
      (last = true → bytes.length = bytePtr + u.length) →
      ∃ y r, v.readVariablePart o f bytes bytePtr = .ok (y, r) ∧
        u.length < v.unknownLength y ∧ (last = false → r = bytePtr + u.length)) :
    v.OverrunsOn last h u f where
  length := hlen
  fixed o bytes bytePtr hseg := by
    rw [hfixed o bytes bytePtr hseg, hcow, if_neg Bool.false_ne_true]
  static bytes offset bytePtr _ := hread (.static offset) bytes bytePtr
  dynamic bytes bytePtr hseg hend := by
    have hright := hseg.right
    rw [List.length_append, ← Nat.add_assoc, hlen] at hend
    rw [hlen] at hright
    obtain ⟨y, r, hy, hlong, hr⟩ := hread .dynamic bytes _ hright hend
    refine ⟨y, r, ?_, hlong, fun hl => ?_⟩
    · rw [readInner, hfixed .dynamic bytes bytePtr hseg.left, Outcome.bind_ok]
      exact hy
    · rw [hr hl, List.length_append, hlen, Nat.add_assoc]

theorem Value.OverrunsOn.cow {v : Value} {last : Bool} {h u : Bytes} {f : v.Fixed}
    (hv : v.OverrunsOn last h u f) : Value.OverrunsOn (.cow v) last h u () where
  length := hv.length
  fixed _ _ _ _ := rfl
  static bytes offset bytePtr hfixed hvariable hend := by
    have hptr : (if v.isCow then bytePtr else (ByteOffset.static offset).next v.fixedBytes bytePtr) =
        bytePtr := ite_self bytePtr
    obtain ⟨y, r, hy, hlong, hr⟩ := hv.static bytes offset bytePtr hfixed hvariable hend
    refine ⟨.owned y, r, ?_, hlong, hr⟩
    rw [readVariablePart_cow, readInner, hv.fixed (.static offset) bytes bytePtr hfixed,
      Outcome.bind_ok, hptr]
    show (v.readVariablePart (.static offset) f bytes bytePtr >>= _) = _
    rw [hy]
    rfl
  dynamic bytes bytePtr hseg hend := by
    obtain ⟨y, r, hy, hlong, hr⟩ := hv.dynamic bytes bytePtr hseg hend
    refine ⟨.owned y, r, ?_, hlong, hr⟩
    rw [readInner_cow, hy]
    rfl

theorem Value.OverrunsOn.option {v : Value} {last : Bool} {h u : Bytes} {f : v.Fixed}
    (hv : v.OverrunsOn last h u f) : Value.OverrunsOn (.option v) last [1] (h ++ u) true :=
  .of_bytePtr rfl rfl
    (fun o bytes bytePtr hseg => by
      rw [readFixedPart, readFlag_segment (b := true) hseg]
      rfl)
    fun o bytes bytePtr hseg hend => by
      obtain ⟨y, r, hy, hlong, hr⟩ := hv.dynamic bytes bytePtr hseg hend
      refine ⟨some y, r, ?_, ?_, hr⟩
      · rw [readVariablePart_option, if_pos rfl, hy]
        rfl
      · rw [unknownLength, List.length_append, hv.length]
        omega

/-- One byte that is no UTF-8 becomes three. -/
theorem Value.OverrunsOn.string (last : Bool) :
    Value.OverrunsOn .string last (lenBytes 1) [0xFF] 1 :=
  .of_bytePtr rfl rfl
    (fun o bytes bytePtr hseg => by
      rw [readFixedPart, readLen_segment hseg]
      rfl)
    fun o bytes bytePtr hseg _ => by
      have hlossy : fromUtf8Lossy [0xFF] = "\uFFFD" := by decide +kernel
      have hlen : [(0xFF : UInt8)].length < (asBytes "\uFFFD").length := by decide +kernel
      refine ⟨"\uFFFD", _, ?_, hlen, fun _ => rfl⟩
      have hslice := sliceOf_segment hseg
      show readString 1 bytes bytePtr = _
      rw [readString]
      rw [List.length_singleton] at hslice
      rw [hslice, Outcome.bind_ok, hlossy]
      rfl

/-- The type is read from the bytes as a value that is longer. -/
def Ty.OverrunsOn (t : Ty) (u : Bytes) : Prop :=
  ∃ x n, t.read u = .ok (x, n) ∧ u.length < t.byteLen x

theorem Value.OverrunsOn.delegated {t : Ty} {u : Bytes} (h : t.OverrunsOn u) :
    Value.OverrunsOn (.delegated t) true [] u () :=
  .of_bytePtr rfl rfl (fun o _ _ _ => by cases o <;> rfl) fun _ bytes bytePtr hseg hend => by
    obtain ⟨x, n, hx, hlong⟩ := h
    refine ⟨x, bytePtr + t.byteLen x, ?_, hlong, fun h => (nomatch h)⟩
    rw [readVariablePart, suffixFrom_end hseg (hend rfl), Outcome.bind_ok, value_ok hx]
    rfl

/-- Items that are read from their encodings, and a last one that overruns. -/
theorem Ty.OverrunsOn.items {t : Ty} {u : Bytes} (h : t.OverrunsOn u) (ha : t.Accepted)
    {x : t.Val} (hx : t.Small x) {bytes : Bytes} (n : Nat) {bytePtr : Nat}
    (hseg : Segment bytes bytePtr ((List.replicate n (t.encode x)).flatten ++ u))
    (hend : bytes.length = bytePtr + ((List.replicate n (t.encode x)).flatten ++ u).length) :
    ∃ xs r, readItems (fun bytes => value (t.read bytes)) t.byteLen bytes (n + 1) bytePtr =
      .ok (xs, r) ∧
      ((List.replicate n (t.encode x)).flatten ++ u).length < (xs.val.map t.byteLen).sum := by
  induction n generalizing bytePtr with
  | zero =>
    obtain ⟨y, m, hy, hlong⟩ := h
    rw [List.replicate_zero, List.flatten_nil, List.nil_append] at hseg hend ⊢
    refine ⟨⟨[y], rfl⟩, bytePtr + t.byteLen y, ?_, ?_⟩
    · rw [readItems, suffixFrom_end hseg hend, Outcome.bind_ok, value_ok hy]
      rfl
    · simpa using hlong
  | succ n ih =>
    have hlen : (t.encode x).length = t.byteLen (t.owned x) := by
      rw [t.length_encode, t.byteLen_owned]
    rw [List.replicate_succ, List.flatten_cons, List.append_assoc] at hseg hend ⊢
    rw [List.length_append] at hend ⊢
    have hright := hseg.right
    obtain ⟨xs, r, hxs, hlong⟩ := ih hright (by omega)
    refine ⟨⟨t.owned x :: xs.val, congrArg (· + 1) xs.property⟩, r, ?_, ?_⟩
    · rw [readItems, suffixFrom_end hseg (by rw [List.length_append, hend]), Outcome.bind_ok,
        value_ok (t.reads ha x hx _), Outcome.bind_ok, ← hlen, hxs]
      rfl
    · rw [List.map_cons, List.sum_cons]
      omega

theorem Value.OverrunsOn.array {t : Ty} {length : Nat} {u : Bytes} (hlen : length ≠ 0)
    (h : t.OverrunsOn u) (ha : t.Accepted) :
    ∃ u, Value.OverrunsOn (.array t length) true [] u () := by
  obtain ⟨n, rfl⟩ := Nat.exists_eq_succ_of_ne_zero hlen
  obtain ⟨x, hx⟩ := t.exists_small ha
  refine ⟨(List.replicate n (t.encode x)).flatten ++ u, .of_bytePtr rfl rfl
    (fun o _ _ _ => by cases o <;> rfl) fun _ bytes bytePtr hseg hend => ?_⟩
  obtain ⟨xs, r, hxs, hlong⟩ := h.items ha hx n hseg (hend rfl)
  exact ⟨xs, r, hxs, hlong, fun h => (nomatch h)⟩

theorem Value.OverrunsOn.vec {t : Ty} {u : Bytes} (h : t.OverrunsOn u) :
    Value.OverrunsOn (.vec t) true (lenBytes 1) u 1 :=
  .of_bytePtr rfl rfl
    (fun o bytes bytePtr hseg => by
      rw [readFixedPart, readLen_segment hseg]
      rfl)
    fun _ bytes bytePtr hseg hend => by
      obtain ⟨x, n, hx, hlong⟩ := h
      refine ⟨[x], bytePtr + t.byteLen x, ?_, ?_, fun h => Bool.noConfusion h⟩
      · rw [readVariablePart, readItems, suffixFrom_end hseg (hend rfl), Outcome.bind_ok,
          value_ok hx]
        rfl
      · show u.length < ([x].map t.byteLen).sum
        simpa using hlong

/-- Fields in a row with `h` as their fixed parts, at the end of the bytes. -/
structure Fields.OverrunsOn (fs : Fields) (h u : Bytes) (f : fs.Fixed) : Prop where
  length : h.length = fs.fixedBytes
  fixed : ∀ bytes offset, Segment bytes offset h → fs.readFixedPart offset bytes = .ok f
  long : ∀ bytes offset bytePtr, Segment bytes offset h → Segment bytes bytePtr u →
    bytes.length = bytePtr + u.length →
    ∃ y r, fs.readVariablePart offset f bytes bytePtr = .ok (y, r) ∧ u.length < fs.unknownLength y

theorem Fields.readFixedPart_cons {v : Value} {fs : Fields} {last : Bool} {h u : Bytes}
    {f : v.Fixed} (hv : v.OverrunsOn last h u f) (x : fs.Val) {bytes : Bytes} {offset : Nat}
    (hseg : Segment bytes offset (h ++ fs.encodeFixed x)) :
    (Fields.cons v fs).readFixedPart offset bytes = .ok (f, fs.fixedOf x) := by
  have hright := hseg.right
  rw [hv.length] at hright
  rw [readFixedPart, hv.fixed (.static offset) bytes 0 hseg.left, Outcome.bind_ok,
    fs.readFixedPart_segment x _ hright]
  rfl

/-- A string makes the value longer, whatever comes after it. -/
theorem Fields.OverrunsOn.string {v : Value} {fs : Fields} {h u : Bytes} {f : v.Fixed}
    {x : fs.Val} (hv : v.OverrunsOn false h u f) (hx : fs.Reads x) :
    Fields.OverrunsOn (.cons v fs) (h ++ fs.encodeFixed x) (u ++ fs.encodeVariable x)
      (f, fs.fixedOf x) where
  length := by rw [List.length_append, hv.length, fs.length_encodeFixed, fixedBytes]
  fixed _ _ := Fields.readFixedPart_cons hv x
  long bytes offset bytePtr hfixed hvariable _ := by
    have hright := hfixed.right
    rw [hv.length] at hright
    obtain ⟨y, r, hy, hlong, hr⟩ := hv.static bytes offset bytePtr hfixed.left hvariable.left
      fun h => (nomatch h)
    obtain rfl := hr rfl
    refine ⟨(y, fs.owned x), bytePtr + u.length + (fs.encodeVariable x).length, ?_, ?_⟩
    · rw [readVariablePart, hy, Outcome.bind_ok]
      show (fs.readVariablePart _ _ _ _ >>= _) = _
      rw [hx bytes _ _ hright hvariable.right]
      rfl
    · rw [unknownLength, List.length_append, ← fs.length_encodeVariable (fs.owned x),
        fs.encodeVariable_owned]
      omega

/-- Fields none of which has to slice have a value that needs nothing at `byte_ptr`. -/
theorem Fields.exists_stays : (fs : Fields) → fs.alwaysSlices = false →
    ∃ x : fs.Val, ∀ bytes offset bytePtr, Segment bytes offset (fs.encodeFixed x) →
      ∃ y, fs.readVariablePart offset (fs.fixedOf x) bytes bytePtr = .ok (y, bytePtr)
  | .nil, _ => ⟨(), fun _ _ _ _ => ⟨(), rfl⟩⟩
  | .cons v fs, h => by
    obtain ⟨hv, hfs⟩ := Bool.or_eq_false_iff.mp h
    obtain ⟨x, hx⟩ := v.exists_stays hv
    obtain ⟨xs, hxs⟩ := fs.exists_stays hfs
    refine ⟨(x, xs), fun bytes offset bytePtr hseg => ?_⟩
    have hright := hseg.right
    rw [v.length_encodeFixed] at hright
    obtain ⟨y, hy⟩ := hx bytes offset bytePtr hseg.left
    obtain ⟨ys, hys⟩ := hxs bytes _ bytePtr hright
    refine ⟨(y, ys), ?_⟩
    rw [fixedOf, readVariablePart, hy, Outcome.bind_ok]
    show (fs.readVariablePart _ _ _ _ >>= _) = _
    rw [hys]
    rfl

/-- The last part that is sliced overruns. -/
theorem Fields.OverrunsOn.last {v : Value} {fs : Fields} {h u : Bytes} {f : v.Fixed}
    (hv : v.OverrunsOn true h u f) (hfs : fs.alwaysSlices = false) :
    ∃ h f, Fields.OverrunsOn (.cons v fs) h u f := by
  obtain ⟨x, hx⟩ := fs.exists_stays hfs
  refine ⟨h ++ fs.encodeFixed x, (f, fs.fixedOf x), ?_, fun _ _ => readFixedPart_cons hv x,
    fun bytes offset bytePtr hfixed hvariable hend => ?_⟩
  · rw [List.length_append, hv.length, fs.length_encodeFixed, fixedBytes]
  · have hright := hfixed.right
    rw [hv.length] at hright
    obtain ⟨y, r, hy, hlong, -⟩ := hv.static bytes offset bytePtr hfixed.left hvariable
      fun _ => hend
    obtain ⟨ys, hys⟩ := hx bytes _ r hright
    refine ⟨(y, ys), r, ?_, ?_⟩
    · rw [readVariablePart, hy, Outcome.bind_ok]
      show (fs.readVariablePart _ _ _ _ >>= _) = _
      rw [hys]
      rfl
    · rw [unknownLength]
      omega

theorem Fields.OverrunsOn.tail {v : Value} {fs : Fields} {h u : Bytes} {f : fs.Fixed} {x : v.Val}
    (hx : v.Reads x) (hfs : fs.OverrunsOn h u f) :
    Fields.OverrunsOn (.cons v fs) (v.encodeFixed x ++ h) (v.encodeVariable x ++ u)
      (v.fixedOf x, f) where
  length := by rw [List.length_append, hfs.length, v.length_encodeFixed, fixedBytes]
  fixed bytes offset hseg := by
    have hright := hseg.right
    rw [v.length_encodeFixed] at hright
    rw [readFixedPart, v.readFixedPart_segment (o := .static offset) x hseg.left, Outcome.bind_ok,
      hfs.fixed bytes _ hright]
    rfl
  long bytes offset bytePtr hfixed hvariable hend := by
    have hright := hfixed.right
    rw [v.length_encodeFixed] at hright
    rw [List.length_append, ← Nat.add_assoc] at hend
    obtain ⟨y, r, hy, hlong⟩ := hfs.long bytes _ _ hright hvariable.right hend
    refine ⟨(v.owned x, y), r, ?_, ?_⟩
    · rw [readVariablePart, hx.static bytes offset bytePtr hfixed.left hvariable.left,
        Outcome.bind_ok]
      show (fs.readVariablePart _ _ _ _ >>= _) = _
      rw [hy]
      rfl
    · rw [unknownLength, List.length_append, ← v.length_encodeVariable (v.owned x),
        v.encodeVariable_owned]
      omega

/-- With the fixed parts before the rest. -/
theorem Fields.OverrunsOn.both {fs : Fields} {h u : Bytes} {f : fs.Fixed}
    (hfs : fs.OverrunsOn h u f) {bytes : Bytes} {offset : Nat}
    (hseg : Segment bytes offset (h ++ u)) (hend : bytes.length = offset + (h ++ u).length) :
    ∃ y r, fs.readBoth offset bytes = .ok (y, r) ∧
      bytes.length < offset + (fs.fixedBytes + fs.unknownLength y) := by
  have hright := hseg.right
  rw [List.length_append] at hend
  rw [hfs.length] at hright hend
  obtain ⟨y, r, hy, hlong⟩ := hfs.long bytes offset _ hseg.left hright (by omega)
  refine ⟨y, r, ?_, by omega⟩
  rw [readBoth, hfs.fixed bytes offset hseg.left, Outcome.bind_ok]
  exact hy

theorem Value.exists_lengthens : (v : Value) → v.makesString = true →
    ∃ h u f, v.OverrunsOn false h u f
  | .string, _ => ⟨_, _, _, .string false⟩
  | .cow v, hs =>
    have ⟨_, _, _, hv⟩ := v.exists_lengthens hs
    ⟨_, _, _, .cow hv⟩
  | .option v, hs =>
    have ⟨_, _, _, hv⟩ := v.exists_lengthens hs
    ⟨_, _, _, .option hv⟩

mutual

theorem Value.exists_overrun : (v : Value) → v.Accepted → v.Overruns →
    ∃ h u f, v.OverrunsOn true h u f
  | .string, _, _ => ⟨_, _, _, .string true⟩
  | .cow v, ha, ho =>
    have ⟨_, _, _, hv⟩ := v.exists_overrun ha.2.2 ho
    ⟨_, _, _, .cow hv⟩
  | .option v, ha, ho =>
    have ⟨_, _, _, hv⟩ := v.exists_overrun ha ho
    ⟨_, _, _, .option hv⟩
  | .array t _, ha, ho =>
    have ⟨_, ht⟩ := t.exists_overrun ha ho.2
    have ⟨_, hu⟩ := Value.OverrunsOn.array ho.1 ht ha
    ⟨_, _, _, hu⟩
  | .vec t, ha, ho =>
    have ⟨_, ht⟩ := t.exists_overrun ha ho
    ⟨_, _, _, .vec ht⟩
  | .delegated t, ha, ho =>
    have ⟨_, ht⟩ := t.exists_overrun ha ho
    ⟨_, _, _, .delegated ht⟩

/-- A type that overruns is read from some bytes as a value that is longer. -/
theorem Ty.exists_overrun : (t : Ty) → t.Accepted → t.Overruns → ∃ u, t.OverrunsOn u
  | .lone v, ha, ho => by
    obtain ⟨h, u, f, hv⟩ := v.exists_overrun ha ho
    obtain ⟨h, f, hfields⟩ := Fields.OverrunsOn.last hv (rfl : Fields.nil.alwaysSlices = false)
    obtain ⟨⟨y, _⟩, r, hy, hlong⟩ := hfields.both (Segment.refl (h ++ u)) (Nat.zero_add _).symm
    rw [Ty.readBoth_single] at hy
    obtain ⟨⟨x, n⟩, hx, he⟩ := Outcome.bind_eq_ok.mp hy
    cases he
    rw [Nat.zero_add] at hlong
    exact ⟨h ++ u, y, r, hx, hlong⟩
  | .struct fs, ha, ho => by
    obtain ⟨h, u, f, hfields⟩ := fs.exists_overrun ha ho
    obtain ⟨y, r, hy, hlong⟩ := hfields.both (Segment.refl (h ++ u)) (Nat.zero_add _).symm
    rw [Nat.zero_add] at hlong
    exact ⟨h ++ u, y, r, (Ty.read_struct fs _).trans hy, hlong⟩
  | .enum vs, ha, ho => by
    obtain ⟨variantId, bs, hid, hbs⟩ := vs.exists_overrun ha.2.2 ho
    obtain ⟨x, n, hx, hlong⟩ := hbs (toLe vs.variantLen variantId ++ bs) vs.variantLen
      ⟨toLe vs.variantLen variantId, [], by simp, length_toLe _ _⟩
      (by rw [List.length_append, length_toLe])
    refine ⟨toLe vs.variantLen variantId ++ bs, x, n, ?_, ?_⟩
    · rw [Ty.read_enum ha.2.1 hid]
      exact hx
    · rw [Ty.byteLen]
      omega

theorem Fields.exists_overrun : (fs : Fields) → fs.Accepted → fs.Overruns →
    ∃ h u f, fs.OverrunsOn h u f
  | .cons v fs, ha, ho => by
    rcases ho with hs | ⟨hv, hfs⟩ | hfs
    · obtain ⟨h, u, f, hv⟩ := v.exists_lengthens hs
      obtain ⟨x, hx⟩ := fs.exists_small ha.2
      exact ⟨_, _, _, .string hv (fs.reads ha.2 x hx)⟩
    · obtain ⟨h, u, f, hv⟩ := v.exists_overrun ha.1 hv
      obtain ⟨h, f, hfields⟩ := Fields.OverrunsOn.last hv hfs
      exact ⟨h, u, f, hfields⟩
    · obtain ⟨h, u, f, hfields⟩ := fs.exists_overrun ha.2 hfs
      obtain ⟨x, hx⟩ := v.exists_small ha.1
      exact ⟨_, _, _, .tail (v.reads ha.1 x hx) hfields⟩

theorem Variants.exists_overrun : (vs : Variants) → vs.Accepted → vs.Overruns →
    ∃ variantId bs, variantId < vs.length ∧ ∀ bytes variantLen, Segment bytes variantLen bs →
      bytes.length = variantLen + bs.length → ∃ x n,
        vs.read variantLen variantId bytes = .ok (x, n) ∧
        bytes.length < variantLen + vs.asLength x
  | .cons fs vs, ha, ho => by
    rcases ho with hfs | hvs
    · obtain ⟨h, u, f, hfields⟩ := fs.exists_overrun ha.1 hfs
      refine ⟨0, h ++ u, Nat.succ_pos _, fun bytes variantLen hseg hend => ?_⟩
      obtain ⟨y, r, hy, hlong⟩ := hfields.both hseg hend
      refine ⟨.inl y, r, ?_, hlong⟩
      rw [Variants.read_zero, hy]
      rfl
    · obtain ⟨variantId, bs, hid, hbs⟩ := vs.exists_overrun ha.2 hvs
      refine ⟨variantId + 1, bs, Nat.succ_lt_succ hid, fun bytes variantLen hseg hend => ?_⟩
      obtain ⟨x, n, hx, hlong⟩ := hbs bytes variantLen hseg hend
      refine ⟨.inr x, n, ?_, hlong⟩
      rw [Variants.read, hx]
      rfl

end

end MiniUdp.Derive
