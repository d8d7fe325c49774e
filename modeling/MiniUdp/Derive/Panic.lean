import MiniUdp.Derive.Run
import MiniUdp.Derive.Total

/-!
# Bytes a decoder does not return from

A decoder that is not guarded panics on some bytes: those that end where a
string should start, or where the fixed part of the last `Cow` should. With
the bytes before them it gets there (`Ty.exists_panic`). One that may step over
a value that is not measured gets to such a value, too, and never returns
(`Ty.exists_hang`). All others return a value or an error, whatever the bytes
are (`Ty.runFromBytes_total_iff`).
-/

namespace MiniUdp.Derive

open Utf8

/-! ## Values to get there with -/

mutual

/-- Every type has a value that is read from its encoding. -/
theorem Value.exists_small : (v : Value) → v.Accepted → ∃ x : v.Val, v.Small x
  | .emptyTuple, _ => ⟨(), trivial⟩
  | .bool, _ => ⟨false, trivial⟩
  | .number _, _ => ⟨0, trivial⟩
  | .string, _ => ⟨"", (by decide +kernel : (asBytes "").length < 2 ^ 32)⟩
  | .cow v, h =>
    have ⟨x, hx⟩ := v.exists_small h.2.2
    ⟨.owned x, hx⟩
  | .option _, _ => ⟨none, trivial⟩
  | .array t length, h =>
    have ⟨x, hx⟩ := t.exists_small h
    ⟨⟨List.replicate length x, List.length_replicate⟩, fun _ hy =>
      (List.eq_of_mem_replicate hy).symm ▸ hx⟩
  | .vec _, _ => ⟨[], Nat.two_pow_pos 32, fun _ hx => nomatch hx⟩
  | .delegated t, h => t.exists_small h

theorem Ty.exists_small : (t : Ty) → t.Accepted → ∃ x : t.Val, t.Small x
  | .lone v, h => v.exists_small h
  | .struct fs, h => fs.exists_small h
  | .enum vs, h => vs.exists_small h.1 h.2.2

theorem Fields.exists_small : (fs : Fields) → fs.Accepted → ∃ x : fs.Val, fs.Small x
  | .nil, _ => ⟨(), trivial⟩
  | .cons v fs, h =>
    have ⟨x, hx⟩ := v.exists_small h.1
    have ⟨xs, hxs⟩ := fs.exists_small h.2
    ⟨(x, xs), hx, hxs⟩

theorem Variants.exists_small : (vs : Variants) → 1 ≤ vs.length → vs.Accepted →
    ∃ x : vs.Val, vs.Small x
  | .nil, hlen, _ => absurd hlen (by decide)
  | .cons fs _, _, h =>
    have ⟨x, hx⟩ := fs.exists_small h.1
    ⟨.inl x, hx⟩

end

/-! ## Slicing beyond the end -/

theorem suffixFrom_beyond {bytes : Bytes} {a : Nat} (h : bytes.length < a) :
    suffixFrom bytes a = .panic := if_neg (Nat.not_le.mpr h)

theorem readItems_beyond {α : Type} {fromBytes : Bytes → Res α} {byteLen : α → Nat}
    {bytes : Bytes} {n bytePtr : Nat} (hn : n ≠ 0) (h : bytes.length < bytePtr) :
    readItems fromBytes byteLen bytes n bytePtr = .panic := by
  obtain ⟨n, rfl⟩ := Nat.exists_eq_succ_of_ne_zero hn
  rw [readItems, suffixFrom_beyond h]
  rfl

theorem Value.readInner_panics {bytes : Bytes} {bytePtr : Nat} (hb : bytes.length < bytePtr) :
    (v : Value) → v.slicesInside = true → v.readInner .dynamic bytes bytePtr = .panic
  | .delegated t, _ => by
    have hinner : Value.readInner (.delegated t) .dynamic bytes bytePtr =
        Value.readVariablePart (.delegated t) .dynamic () bytes bytePtr := rfl
    rw [hinner, readVariablePart, suffixFrom_beyond hb]
    rfl
  | .array _ _, h => readItems_beyond (bne_iff_ne.mp h) hb
  | .cow v, h => by
    rw [readInner_cow, v.readInner_panics hb h]
    rfl

/-- A value that gets to slice. -/
theorem Value.exists_panics_beyond : (v : Value) → v.Accepted → v.slices = true →
    ∃ x : v.Val, ∀ bytes offset bytePtr, Segment bytes offset (v.encodeFixed x) →
      bytes.length < bytePtr →
      v.readVariablePart (.static offset) (v.fixedOf x) bytes bytePtr = .panic
  | .string, _, _ => ⟨"", fun bytes _ bytePtr _ hb => by
    have hslice : sliceOf bytes bytePtr (bytePtr + (asBytes "").length % 2 ^ 32) = .panic :=
      if_neg fun h => absurd (Nat.le_trans h.1 h.2) (Nat.not_le.mpr hb)
    show readString ((asBytes "").length % 2 ^ 32) bytes bytePtr = .panic
    rw [readString, hslice]
    rfl⟩
  | .vec t, h, _ =>
    have ⟨x, _⟩ := t.exists_small h
    ⟨[x], fun bytes _ bytePtr _ hb => by
      rw [fixedOf, readVariablePart, readItems_beyond (show [x].length % 2 ^ 32 ≠ 0 by simp) hb]
      rfl⟩
  | .delegated t, h, _ =>
    have ⟨x, _⟩ := t.exists_small h
    ⟨x, fun bytes _ bytePtr _ hb => by
      rw [readVariablePart, suffixFrom_beyond hb]
      rfl⟩
  | .array t length, h, hslices =>
    have ⟨x, _⟩ := Value.exists_small (.array t length) h
    ⟨x, fun _ _ _ _ hb => readItems_beyond (bne_iff_ne.mp hslices) hb⟩
  | .cow v, h, hslices =>
    have ⟨x, hx⟩ := v.exists_panics_beyond h.2.2 hslices
    ⟨.owned x, fun bytes offset bytePtr hseg hb => by
      rw [readVariablePart_cow, readInner_static (x := x) hseg, hx bytes offset bytePtr hseg hb]
      rfl⟩
  | .option v, h, hslices =>
    have ⟨x, _⟩ := v.exists_small h
    ⟨some x, fun bytes _ bytePtr _ hb => by
      show Value.readVariablePart (.option v) _ true bytes bytePtr = .panic
      rw [readVariablePart_option, if_pos rfl, v.readInner_panics hb hslices]
      rfl⟩

/-- A value that needs nothing at `byte_ptr`. -/
theorem Value.exists_stays : (v : Value) → v.alwaysSlices = false →
    ∃ x : v.Val, ∀ bytes offset bytePtr, Segment bytes offset (v.encodeFixed x) →
      ∃ y, v.readVariablePart (.static offset) (v.fixedOf x) bytes bytePtr = .ok (y, bytePtr)
  | .emptyTuple, _ => ⟨(), fun _ _ _ _ => ⟨(), rfl⟩⟩
  | .bool, _ => ⟨false, fun _ _ _ _ => ⟨false, rfl⟩⟩
  | .number _, _ => ⟨0, fun _ _ _ _ => ⟨0, rfl⟩⟩
  | .option _, _ => ⟨none, fun _ _ _ _ => ⟨none, rfl⟩⟩
  | .vec _, _ => ⟨[], fun _ _ _ _ => ⟨[], rfl⟩⟩
  | .array t length, h => by
    obtain rfl : length = 0 := by simpa [alwaysSlices] using h
    exact ⟨⟨[], rfl⟩, fun _ _ _ _ => ⟨⟨[], rfl⟩, rfl⟩⟩
  | .cow v, h =>
    have ⟨x, hx⟩ := v.exists_stays h
    ⟨.owned x, fun bytes offset bytePtr hseg => by
      obtain ⟨y, hy⟩ := hx bytes offset bytePtr hseg
      refine ⟨.owned y, ?_⟩
      rw [readVariablePart_cow, readInner_static (x := x) hseg, hy]
      rfl⟩

/-! ## Fixed parts that are cut off -/

theorem Value.readFixedPart_of_zero (v : Value) (h : v.fixedBytes = 0) :
    ∃ f, ∀ o bytes bytePtr, v.readFixedPart o bytes bytePtr = .ok (f, bytePtr) := by
  cases v with
  | emptyTuple | cow | array | delegated => exact ⟨(), fun _ _ _ => rfl⟩
  | number n => exact absurd h n.bytes_pos.ne'
  | bool | string | option | vec => cases h

theorem Fields.readFixedPart_of_zero : (fs : Fields) → fs.fixedBytes = 0 →
    ∃ f, ∀ offset bytes, fs.readFixedPart offset bytes = .ok f
  | .nil, _ => ⟨(), fun _ _ => rfl⟩
  | .cons v fs, h => by
    rw [fixedBytes] at h
    obtain ⟨f, hf⟩ := v.readFixedPart_of_zero (by omega)
    obtain ⟨fixed, hfixed⟩ := fs.readFixedPart_of_zero (by omega)
    refine ⟨(f, fixed), fun offset bytes => ?_⟩
    rw [readFixedPart, hf, Outcome.bind_ok, hfixed]
    rfl

/-- The fixed parts are read without that of the `Cow`, which comes last. -/
theorem Fields.exists_cut : (fs : Fields) → fs.Accepted → fs.cowLast = true →
    ∃ h f, h.length < fs.fixedBytes ∧ ∀ bytes offset, Segment bytes offset h →
      fs.readFixedPart offset bytes = .ok f
  | .cons v fs, ha, hlast => by
    rw [cowLast] at hlast
    split at hlast
    · rename_i hzero
      obtain ⟨hcow, hpos⟩ := Bool.and_eq_true_iff.mp hlast
      obtain ⟨fixed, hfixed⟩ := fs.readFixedPart_of_zero hzero
      cases v with
      | cow v =>
        have hpos := bne_iff_ne.mp hpos
        refine ⟨[], ((), fixed), ?_, fun bytes offset _ => ?_⟩
        · rw [fixedBytes, List.length_nil]
          omega
        · rw [readFixedPart, Value.readFixedPart, Outcome.pure_def, Outcome.bind_ok, hfixed]
          rfl
      | _ => cases hcow
    · obtain ⟨x, -⟩ := v.exists_small ha.1
      obtain ⟨h, f, hlen, hread⟩ := fs.exists_cut ha.2 hlast
      refine ⟨v.encodeFixed x ++ h, (v.fixedOf x, f), ?_, fun bytes offset hseg => ?_⟩
      · rw [List.length_append, v.length_encodeFixed, fixedBytes]
        omega
      · have hright := hseg.right
        rw [v.length_encodeFixed] at hright
        rw [readFixedPart, v.readFixedPart_segment (o := .static offset) x hseg.left,
          Outcome.bind_ok, hread bytes _ hright]
        rfl

theorem Fields.fixedBytes_pos_of_cowLast : (fs : Fields) → fs.cowLast = true → 0 < fs.fixedBytes
  | .cons v fs, h => by
    rw [cowLast] at h
    rw [fixedBytes]
    split at h
    · have := bne_iff_ne.mp (Bool.and_eq_true_iff.mp h).2
      omega
    · have := fs.fixedBytes_pos_of_cowLast h
      omega

theorem Fields.cowLast_cons {v : Value} {fs : Fields} (h : fs.cowLast = true) :
    (Fields.cons v fs).cowLast = true := by
  have := fs.fixedBytes_pos_of_cowLast h
  rw [cowLast, if_neg (by omega)]
  exact h

/-- With the fixed parts cut off, something is sliced. -/
def Fields.PanicsCut (fs : Fields) (h : Bytes) : Prop :=
  h.length < fs.fixedBytes ∧ ∃ f, ∀ bytes offset, Segment bytes offset h →
    fs.readFixedPart offset bytes = .ok f ∧ ∀ bytePtr, bytes.length < bytePtr →
      fs.readVariablePart offset f bytes bytePtr = .panic

theorem Fields.PanicsCut.of_slices {v : Value} {fs : Fields} (ha : (Fields.cons v fs).Accepted)
    (hslices : v.slices = true) (hlast : fs.cowLast = true) :
    ∃ h, Fields.PanicsCut (.cons v fs) h := by
  obtain ⟨x, hx⟩ := v.exists_panics_beyond ha.1 hslices
  obtain ⟨h, f, hlen, hread⟩ := fs.exists_cut ha.2 hlast
  refine ⟨v.encodeFixed x ++ h, ?_, (v.fixedOf x, f), fun bytes offset hseg =>
    ⟨?_, fun bytePtr hb => ?_⟩⟩
  · rw [List.length_append, v.length_encodeFixed, fixedBytes]
    omega
  · have hright := hseg.right
    rw [v.length_encodeFixed] at hright
    rw [readFixedPart, v.readFixedPart_segment (o := .static offset) x hseg.left,
      Outcome.bind_ok, hread bytes _ hright]
    rfl
  · rw [readVariablePart, hx bytes offset bytePtr hseg.left hb]
    rfl

theorem Fields.PanicsCut.cons {v : Value} {fs : Fields} (hslices : v.slices = false) {h : Bytes}
    (hfs : fs.PanicsCut h) : ∃ h, Fields.PanicsCut (.cons v fs) h := by
  obtain ⟨x, hx⟩ := v.exists_stays (Bool.eq_false_iff.mpr fun h =>
    Bool.eq_false_iff.mp hslices (v.slices_of_always h))
  obtain ⟨hlen, f, hread⟩ := hfs
  refine ⟨v.encodeFixed x ++ h, ?_, (v.fixedOf x, f), fun bytes offset hseg => ?_⟩
  · rw [List.length_append, v.length_encodeFixed, fixedBytes]
    omega
  have hright := hseg.right
  rw [v.length_encodeFixed] at hright
  obtain ⟨hfixed, hpanic⟩ := hread bytes _ hright
  refine ⟨?_, fun bytePtr hb => ?_⟩
  · rw [readFixedPart, v.readFixedPart_segment (o := .static offset) x hseg.left,
      Outcome.bind_ok, hfixed]
    rfl
  · obtain ⟨y, hy⟩ := hx bytes offset bytePtr hseg.left
    rw [readVariablePart, hy, Outcome.bind_ok]
    show (fs.readVariablePart (offset + v.fixedBytes) f bytes bytePtr >>= _) = .panic
    rw [hpanic bytePtr hb]
    rfl

/-! ## Decoders that panic inside -/

/-- With `h` as its fixed part and `u` as the rest of the bytes the field panics. -/
structure Value.Panics (v : Value) (h u : Bytes) (f : v.Fixed) : Prop where
  length : h.length = v.fixedBytes
  fixed : ∀ o bytes bytePtr, Segment bytes (o.get bytePtr) h →
    v.readFixedPart o bytes bytePtr =
      .ok (f, if v.isCow then bytePtr else o.next v.fixedBytes bytePtr)
  static : ∀ bytes offset bytePtr, Segment bytes offset h → Segment bytes bytePtr u →
    bytes.length = bytePtr + u.length →
    v.readVariablePart (.static offset) f bytes bytePtr = .panic
  dynamic : ∀ bytes bytePtr, Segment bytes bytePtr (h ++ u) →
    bytes.length = bytePtr + (h ++ u).length → v.readInner .dynamic bytes bytePtr = .panic

theorem Value.Panics.of_bytePtr {v : Value} {h u : Bytes} {f : v.Fixed} (hcow : v.isCow = false)
    (hlen : h.length = v.fixedBytes)
    (hfixed : ∀ o bytes bytePtr, Segment bytes (o.get bytePtr) h →
      v.readFixedPart o bytes bytePtr = .ok (f, o.next v.fixedBytes bytePtr))
    (hpanic : ∀ o bytes bytePtr, Segment bytes bytePtr u → bytes.length = bytePtr + u.length →
      v.readVariablePart o f bytes bytePtr = .panic) : v.Panics h u f where
  length := hlen
  fixed o bytes bytePtr hseg := by
    rw [hfixed o bytes bytePtr hseg, hcow, if_neg Bool.false_ne_true]
  static bytes offset bytePtr _ := hpanic (.static offset) bytes bytePtr
  dynamic bytes bytePtr hseg hend := by
    have hright := hseg.right
    rw [List.length_append] at hend
    rw [readInner, hfixed .dynamic bytes bytePtr hseg.left, Outcome.bind_ok]
    rw [hlen] at hright hend
    exact hpanic .dynamic bytes _ hright (hend.trans (Nat.add_assoc _ _ _).symm)

theorem Value.Panics.cow {v : Value} {h u : Bytes} {f : v.Fixed} (hv : v.Panics h u f) :
    Value.Panics (.cow v) h u () where
  length := hv.length
  fixed _ _ _ _ := rfl
  static bytes offset bytePtr hfixed hvariable hend := by
    have hptr : (if v.isCow then bytePtr else (ByteOffset.static offset).next v.fixedBytes bytePtr) =
        bytePtr := ite_self bytePtr
    rw [readVariablePart_cow, readInner, hv.fixed (.static offset) bytes bytePtr hfixed,
      Outcome.bind_ok, hptr]
    show (v.readVariablePart (.static offset) f bytes bytePtr >>= _) = .panic
    rw [hv.static bytes offset bytePtr hfixed hvariable hend]
    rfl
  dynamic bytes bytePtr hseg hend := by
    rw [readInner_cow, hv.dynamic bytes bytePtr hseg hend]
    rfl

theorem Value.Panics.option {v : Value} {h u : Bytes} {f : v.Fixed} (hv : v.Panics h u f) :
    Value.Panics (.option v) [1] (h ++ u) true :=
  .of_bytePtr rfl rfl
    (fun o bytes bytePtr hseg => by
      rw [readFixedPart, readFlag_segment (b := true) hseg]
      rfl)
    fun o bytes bytePtr hseg hend => by
      rw [readVariablePart_option, if_pos rfl, hv.dynamic bytes bytePtr hseg hend]
      rfl

/-- The string is longer than what is left, which is nothing. -/
theorem Value.Panics.string : Value.Panics .string (lenBytes (2 ^ 32 - 1)) [] (2 ^ 32 - 1) :=
  .of_bytePtr rfl rfl
    (fun o bytes bytePtr hseg => by
      rw [readFixedPart, readLen_segment hseg]
      rfl)
    fun o bytes bytePtr _ hend => by
      rw [List.length_nil, Nat.add_zero] at hend
      have hslice : sliceOf bytes bytePtr (bytePtr + (2 ^ 32 - 1)) = .panic :=
        if_neg fun h => by omega
      show readString (2 ^ 32 - 1) bytes bytePtr = .panic
      rw [readString, hslice]
      rfl

theorem suffixFrom_end {bytes u : Bytes} {a : Nat} (hseg : Segment bytes a u)
    (hend : bytes.length = a + u.length) : suffixFrom bytes a = .ok u := by
  obtain ⟨pre, post, rfl, rfl⟩ := hseg
  have hpost : post = [] := by
    rw [List.length_append, List.length_append] at hend
    exact List.length_eq_zero_iff.mp (by omega)
  rw [hpost, List.append_nil, suffixFrom_append pre u rfl]

theorem Value.Panics.delegated {t : Ty} {u : Bytes} (h : t.read u = .panic) :
    Value.Panics (.delegated t) [] u () :=
  .of_bytePtr rfl rfl (fun o _ _ _ => by cases o <;> rfl) fun _ bytes bytePtr hseg hend => by
    rw [readVariablePart, suffixFrom_end hseg hend, Outcome.bind_ok, h]
    rfl

theorem Ty.readItems_panics {t : Ty} {u : Bytes} (h : t.read u = .panic) {bytes : Bytes}
    {n bytePtr : Nat} (hn : n ≠ 0) (hseg : Segment bytes bytePtr u)
    (hend : bytes.length = bytePtr + u.length) :
    readItems (fun bytes => value (t.read bytes)) t.byteLen bytes n bytePtr = .panic := by
  obtain ⟨n, rfl⟩ := Nat.exists_eq_succ_of_ne_zero hn
  rw [readItems, suffixFrom_end hseg hend, Outcome.bind_ok, h]
  rfl

theorem Value.Panics.array {t : Ty} {length : Nat} {u : Bytes} (hlen : length ≠ 0)
    (h : t.read u = .panic) : Value.Panics (.array t length) [] u () :=
  .of_bytePtr rfl rfl (fun o _ _ _ => by cases o <;> rfl) fun _ _ _ hseg hend =>
    Ty.readItems_panics h hlen hseg hend

theorem Value.Panics.vec {t : Ty} {u : Bytes} (h : t.read u = .panic) :
    Value.Panics (.vec t) (lenBytes 1) u 1 :=
  .of_bytePtr rfl rfl
    (fun o bytes bytePtr hseg => by
      rw [readFixedPart, readLen_segment hseg]
      rfl)
    fun _ bytes bytePtr hseg hend => by
      rw [readVariablePart, Ty.readItems_panics h Nat.one_ne_zero hseg hend]
      rfl

/-- Fields in a row with `h` as their fixed parts and `u` as the rest of the bytes. -/
structure Fields.Panics (fs : Fields) (h u : Bytes) (f : fs.Fixed) : Prop where
  length : h.length = fs.fixedBytes
  fixed : ∀ bytes offset, Segment bytes offset h → fs.readFixedPart offset bytes = .ok f
  panics : ∀ bytes offset bytePtr, Segment bytes offset h → Segment bytes bytePtr u →
    bytes.length = bytePtr + u.length → fs.readVariablePart offset f bytes bytePtr = .panic

theorem Fields.Panics.head {v : Value} {fs : Fields} {h u : Bytes} {f : v.Fixed} (x : fs.Val)
    (hv : v.Panics h u f) : Fields.Panics (.cons v fs) (h ++ fs.encodeFixed x) u (f, fs.fixedOf x)
    where
  length := by rw [List.length_append, hv.length, fs.length_encodeFixed, fixedBytes]
  fixed bytes offset hseg := by
    have hright := hseg.right
    rw [hv.length] at hright
    rw [readFixedPart, hv.fixed (.static offset) bytes 0 hseg.left, Outcome.bind_ok,
      fs.readFixedPart_segment x _ hright]
    rfl
  panics bytes offset bytePtr hfixed hvariable hend := by
    rw [readVariablePart, hv.static bytes offset bytePtr hfixed.left hvariable hend]
    rfl

theorem Fields.Panics.tail {v : Value} {fs : Fields} {h u : Bytes} {f : fs.Fixed} {x : v.Val}
    (hx : v.Reads x) (hfs : fs.Panics h u f) :
    Fields.Panics (.cons v fs) (v.encodeFixed x ++ h) (v.encodeVariable x ++ u)
      (v.fixedOf x, f) where
  length := by rw [List.length_append, hfs.length, v.length_encodeFixed, fixedBytes]
  fixed bytes offset hseg := by
    have hright := hseg.right
    rw [v.length_encodeFixed] at hright
    rw [readFixedPart, v.readFixedPart_segment (o := .static offset) x hseg.left, Outcome.bind_ok,
      hfs.fixed bytes _ hright]
    rfl
  panics bytes offset bytePtr hfixed hvariable hend := by
    have hright := hfixed.right
    rw [v.length_encodeFixed] at hright
    rw [List.length_append, ← Nat.add_assoc] at hend
    rw [readVariablePart, hx.static bytes offset bytePtr hfixed.left hvariable.left,
      Outcome.bind_ok]
    show (fs.readVariablePart (offset + v.fixedBytes) f bytes _ >>= _) = .panic
    rw [hfs.panics bytes _ _ hright hvariable.right hend]
    rfl

/-! ## Every type -/

/-- Bytes at the end of a slice that the fields are read from with a panic. -/
def Fields.PanicsOn (fs : Fields) (bs : Bytes) : Prop :=
  ∀ bytes offset, Segment bytes offset bs → bytes.length = offset + bs.length →
    fs.readBoth offset bytes = .panic

theorem Fields.Panics.panicsOn {fs : Fields} {h u : Bytes} {f : fs.Fixed} (hfs : fs.Panics h u f) :
    fs.PanicsOn (h ++ u) := by
  intro bytes offset hseg hend
  have hright := hseg.right
  rw [hfs.length] at hright
  rw [List.length_append, hfs.length, ← Nat.add_assoc] at hend
  rw [readBoth, hfs.fixed bytes offset hseg.left, Outcome.bind_ok]
  exact hfs.panics bytes offset _ hseg.left hright hend

theorem Fields.PanicsCut.panicsOn {fs : Fields} {h : Bytes} (hfs : fs.PanicsCut h) :
    fs.PanicsOn h := by
  intro bytes offset hseg hend
  obtain ⟨hlen, f, hread⟩ := hfs
  obtain ⟨hfixed, hpanic⟩ := hread bytes offset hseg
  rw [readBoth, hfixed, Outcome.bind_ok]
  exact hpanic _ (by omega)

mutual

theorem Value.exists_panics : (v : Value) → v.Accepted → ¬ v.Guarded →
    ∃ h u f, v.Panics h u f
  | .emptyTuple, _, h | .bool, _, h | .number _, _, h => absurd trivial h
  | .string, _, _ => ⟨_, _, _, .string⟩
  | .cow v, ha, h =>
    have ⟨_, _, _, hv⟩ := v.exists_panics ha.2.2 h
    ⟨_, _, _, .cow hv⟩
  | .option v, ha, h =>
    have ⟨_, _, _, hv⟩ := v.exists_panics ha h
    ⟨_, _, _, .option hv⟩
  | .array t _, ha, h =>
    have ⟨hlen, ht⟩ := not_or.mp h
    have ⟨_, hu⟩ := t.exists_panic ha ht
    ⟨_, _, _, .array hlen hu⟩
  | .vec t, ha, h =>
    have ⟨_, hu⟩ := t.exists_panic ha h
    ⟨_, _, _, .vec hu⟩
  | .delegated t, ha, h =>
    have ⟨_, hu⟩ := t.exists_panic ha h
    ⟨_, _, _, .delegated hu⟩

/-- A decoder that is not guarded panics on some bytes. -/
theorem Ty.exists_panic : (t : Ty) → t.Accepted → ¬ t.Guarded → ∃ bytes, t.read bytes = .panic
  | .lone v, ha, h => by
    obtain ⟨h, u, f, hv⟩ := v.exists_panics ha h
    have hseg := Segment.refl (h ++ u)
    have hright := hseg.right
    rw [hv.length, Nat.zero_add] at hright
    refine ⟨h ++ u, ?_⟩
    rw [Ty.read, hv.fixed (.static 0) _ 0 hseg.left, Outcome.bind_ok]
    refine hv.static _ 0 _ hseg.left hright ?_
    rw [List.length_append, hv.length]
  | .struct fs, ha, h => by
    obtain ⟨bs, hbs⟩ := fs.exists_panicsOn ha h
    exact ⟨bs, (Ty.read_struct fs bs).trans (hbs bs 0 (Segment.refl bs) (Nat.zero_add _).symm)⟩
  | .enum vs, ha, h => by
    obtain ⟨variantId, bs, hid, hbs⟩ := vs.exists_panic ha.2.2 h
    refine ⟨toLe vs.variantLen variantId ++ bs, ?_⟩
    rw [Ty.read_enum ha.2.1 hid]
    refine hbs _ _ ⟨toLe vs.variantLen variantId, [], by simp, length_toLe _ _⟩ ?_
    rw [List.length_append, length_toLe]

theorem Fields.exists_panics : (fs : Fields) → fs.Accepted → ¬ fs.Guarded →
    (∃ h u f, fs.Panics h u f) ∨ fs.cowLast = true ∧ ∃ h, fs.PanicsCut h
  | .nil, _, h => absurd trivial h
  | .cons v fs, ha, h => by
    by_cases hv : v.Guarded
    · by_cases hslices : fs.cowLast = true ∧ v.slices = true
      · exact .inr ⟨Fields.cowLast_cons hslices.1, Fields.PanicsCut.of_slices ha hslices.2 hslices.1⟩
      · have hfs : ¬ fs.Guarded := fun hfs =>
          h ⟨hv, fun hlast => Bool.eq_false_iff.mpr fun hs => hslices ⟨hlast, hs⟩, hfs⟩
        rcases fs.exists_panics ha.2 hfs with ⟨h, u, f, hpanics⟩ | ⟨hlast, h, hcut⟩
        · obtain ⟨x, hx⟩ := v.exists_small ha.1
          exact .inl ⟨_, _, _, .tail (v.reads ha.1 x hx) hpanics⟩
        · have hs : v.slices = false := Bool.eq_false_iff.mpr fun hs => hslices ⟨hlast, hs⟩
          exact .inr ⟨Fields.cowLast_cons hlast, Fields.PanicsCut.cons hs hcut⟩
    · obtain ⟨h, u, f, hpanics⟩ := v.exists_panics ha.1 hv
      obtain ⟨x, -⟩ := fs.exists_small ha.2
      exact .inl ⟨_, _, _, .head x hpanics⟩

theorem Fields.exists_panicsOn : (fs : Fields) → fs.Accepted → ¬ fs.Guarded →
    ∃ bs, fs.PanicsOn bs := fun fs ha h => by
  rcases fs.exists_panics ha h with ⟨h, u, f, hpanics⟩ | ⟨-, h, hcut⟩
  · exact ⟨_, hpanics.panicsOn⟩
  · exact ⟨_, hcut.panicsOn⟩

theorem Variants.exists_panic : (vs : Variants) → vs.Accepted → ¬ vs.Guarded →
    ∃ variantId bs, variantId < vs.length ∧ ∀ bytes variantLen, Segment bytes variantLen bs →
      bytes.length = variantLen + bs.length → vs.read variantLen variantId bytes = .panic
  | .nil, _, h => absurd trivial h
  | .cons fs vs, ha, h => by
    by_cases hfs : fs.Guarded
    · obtain ⟨variantId, bs, hid, hbs⟩ := vs.exists_panic ha.2 fun hvs => h ⟨hfs, hvs⟩
      refine ⟨variantId + 1, bs, Nat.succ_lt_succ hid, fun bytes variantLen hseg hend => ?_⟩
      rw [Variants.read, hbs bytes variantLen hseg hend]
      rfl
    · obtain ⟨bs, hbs⟩ := fs.exists_panicsOn ha.1 hfs
      refine ⟨0, bs, Nat.succ_pos _, fun bytes variantLen hseg hend => ?_⟩
      rw [Variants.read_zero, hbs bytes variantLen hseg hend]
      rfl

end

/-! ## Values that are not measured -/

mutual

theorem Value.exists_unmeasured : (v : Value) → v.Accepted → ¬ v.Measurable →
    ∃ x : v.Val, v.Small x ∧ ¬ v.Measured x
  | .emptyTuple, _, h | .bool, _, h | .number _, _, h | .string, _, h => absurd trivial h
  | .cow v, ha, h => by
    by_cases hv : v.Measurable
    · obtain ⟨x, hx⟩ := v.exists_small ha.2.2
      exact ⟨.owned x, hx, fun hm => h ⟨hm.1, hv⟩⟩
    · obtain ⟨x, hx, hno⟩ := v.exists_unmeasured ha.2.2 hv
      exact ⟨.owned x, hx, fun hm => hno hm.2⟩
  | .option v, ha, h =>
    have ⟨x, hx, hno⟩ := v.exists_unmeasured ha h
    ⟨some x, hx, hno⟩
  | .array t length, ha, h =>
    have ⟨hlen, ht⟩ := not_or.mp h
    have ⟨x, hx, hno⟩ := t.exists_unmeasured ha ht
    ⟨⟨List.replicate length x, List.length_replicate⟩,
      fun _ hy => (List.eq_of_mem_replicate hy).symm ▸ hx,
      fun hm => hno (hm x (List.mem_replicate.mpr ⟨hlen, rfl⟩))⟩
  | .vec t, ha, h =>
    have ⟨x, hx, hno⟩ := t.exists_unmeasured ha h
    ⟨[x], ⟨(by decide : 1 < 2 ^ 32), List.forall_mem_singleton.mpr hx⟩,
      fun hm => hno (hm x List.mem_cons_self)⟩
  | .delegated t, ha, h => t.exists_unmeasured ha h

/-- A type that is not measurable has a value that is not measured, with short strings and
vectors. -/
theorem Ty.exists_unmeasured : (t : Ty) → t.Accepted → ¬ t.Measurable →
    ∃ x : t.Val, t.Small x ∧ ¬ t.Measured x
  | .lone v, ha, h => v.exists_unmeasured ha h
  | .struct fs, ha, h => fs.exists_unmeasured ha h
  | .enum vs, ha, h => vs.exists_unmeasured ha.2.2 h

theorem Fields.exists_unmeasured : (fs : Fields) → fs.Accepted → ¬ fs.Measurable →
    ∃ x : fs.Val, fs.Small x ∧ ¬ fs.Measured x
  | .nil, _, h => absurd trivial h
  | .cons v fs, ha, h => by
    by_cases hv : v.Measurable
    · obtain ⟨x, hx⟩ := v.exists_small ha.1
      obtain ⟨xs, hxs, hno⟩ := fs.exists_unmeasured ha.2 fun hfs => h ⟨hv, hfs⟩
      exact ⟨(x, xs), ⟨hx, hxs⟩, fun hm => hno hm.2⟩
    · obtain ⟨x, hx, hno⟩ := v.exists_unmeasured ha.1 hv
      obtain ⟨xs, hxs⟩ := fs.exists_small ha.2
      exact ⟨(x, xs), ⟨hx, hxs⟩, fun hm => hno hm.1⟩

theorem Variants.exists_unmeasured : (vs : Variants) → vs.Accepted → ¬ vs.Measurable →
    ∃ x : vs.Val, vs.Small x ∧ ¬ vs.Measured x
  | .nil, _, h => absurd trivial h
  | .cons fs vs, ha, h => by
    by_cases hfs : fs.Measurable
    · obtain ⟨x, hx, hno⟩ := vs.exists_unmeasured ha.2 fun hvs => h ⟨hfs, hvs⟩
      exact ⟨.inr x, hx, hno⟩
    · obtain ⟨x, hx, hno⟩ := fs.exists_unmeasured ha.1 hfs
      exact ⟨.inl x, hx, hno⟩

end

theorem Value.exists_unstepped : (v : Value) → v.Accepted → ¬ v.Steppable →
    ∃ x : v.Val, v.Small x ∧ ¬ v.Parts Ty.Measured (v.owned x)
  | .emptyTuple, _, h | .bool, _, h | .number _, _, h | .string, _, h => absurd trivial h
  | .cow v, ha, h =>
    have ⟨x, hx, hno⟩ := v.exists_unstepped ha.2.2 h
    ⟨.owned x, hx, hno⟩
  | .option v, ha, h =>
    have ⟨x, hx, hno⟩ := v.exists_unstepped ha h
    ⟨some x, hx, hno⟩
  | .array t length, ha, h =>
    have ⟨x, hx, hno⟩ := Value.exists_unmeasured (.array t length) ha h
    ⟨x, hx, fun hm => hno ((Value.measured_owned (.array t length) x).mp hm)⟩
  | .vec t, ha, h =>
    have ⟨x, hx, hno⟩ := Value.exists_unmeasured (.vec t) ha h
    ⟨x, hx, fun hm => hno ((Value.measured_owned (.vec t) x).mp hm)⟩
  | .delegated t, ha, h =>
    have ⟨x, hx, hno⟩ := t.exists_unmeasured ha h
    ⟨x, hx, fun hm => hno ((t.measured_owned x).mp hm)⟩

theorem Fields.exists_unstepped : (fs : Fields) → fs.Accepted → ¬ fs.Steppable →
    ∃ x : fs.Val, fs.Small x ∧ ¬ fs.Parts Ty.Measured (fs.owned x)
  | .nil, _, h => absurd trivial h
  | .cons v fs, ha, h => by
    by_cases hv : v.Steppable
    · obtain ⟨x, hx⟩ := v.exists_small ha.1
      obtain ⟨xs, hxs, hno⟩ := fs.exists_unstepped ha.2 fun hfs => h ⟨hv, hfs⟩
      exact ⟨(x, xs), ⟨hx, hxs⟩, fun hm => hno hm.2⟩
    · obtain ⟨x, hx, hno⟩ := v.exists_unstepped ha.1 hv
      obtain ⟨xs, hxs⟩ := fs.exists_small ha.2
      exact ⟨(x, xs), ⟨hx, hxs⟩, fun hm => hno hm.1⟩

theorem Variants.exists_unstepped : (vs : Variants) → vs.Accepted → ¬ vs.Steppable →
    ∃ x : vs.Val, vs.Small x ∧ ¬ vs.Parts Ty.Measured (vs.owned x)
  | .nil, _, h => absurd trivial h
  | .cons fs vs, ha, h => by
    by_cases hfs : fs.Steppable
    · obtain ⟨x, hx, hno⟩ := vs.exists_unstepped ha.2 fun hvs => h ⟨hfs, hvs⟩
      exact ⟨.inr x, hx, hno⟩
    · obtain ⟨x, hx, hno⟩ := fs.exists_unstepped ha.1 hfs
      exact ⟨.inl x, hx, hno⟩

theorem Ty.exists_unstepped : (t : Ty) → t.Accepted → ¬ t.Steppable →
    ∃ x : t.Val, t.Small x ∧ ¬ t.Stepped (t.owned x)
  | .lone v, ha, h => v.exists_unstepped ha h
  | .struct fs, ha, h => fs.exists_unstepped ha h
  | .enum vs, ha, h => vs.exists_unstepped ha.2.2 h

/-- A reader that may step over a value that is not measured never returns from the encoding of
one. -/
theorem Ty.exists_hang (t : Ty) (ha : t.Accepted) (h : ¬ t.Steppable) :
    ∃ bytes, t.runRead bytes = .hang := by
  obtain ⟨x, hx, hno⟩ := t.exists_unstepped ha h
  exact ⟨t.encode x ++ [], ((t.runRead_runs _).ok _ (t.reads ha x hx [])).hang hno⟩

/-- On every slice `from_bytes` returns a value or an error just when no string can be read,
nothing is sliced before a `Cow` with the last of the fixed parts, and every type whose values are
stepped over has only measured ones. -/
theorem Ty.runFromBytes_total_iff (t : Ty) (haccepted : t.Accepted) :
    (∀ bytes, (t.runFromBytes bytes).returns = true) ↔ t.Guarded ∧ t.Steppable := by
  constructor
  · intro h
    refine ⟨by_contra fun hno => ?_, by_contra fun hno => ?_⟩
    · obtain ⟨bytes, hbytes⟩ := t.exists_panic haccepted hno
      have hreturns := h bytes
      rcases (t.runRead_runs bytes).below with hrun | hrun <;>
        rw [runFromBytes, hrun] at hreturns
      · cases hreturns
      · rw [hbytes] at hreturns
        cases hreturns
    · obtain ⟨bytes, hbytes⟩ := t.exists_hang haccepted hno
      have hreturns := h bytes
      rw [runFromBytes, hbytes] at hreturns
      cases hreturns
  · rintro ⟨hguarded, hsteppable⟩ bytes
    rw [runFromBytes, (t.runRead_runs bytes).eq hsteppable]
    exact t.returns haccepted hguarded hsteppable bytes

/-- `struct { list: Vec<Option<[u16; 2]>>, c: Cow<u32>, n: u8 }` -/
def guarded : Ty :=
  .struct (.cons (.vec (.lone (.option (.delegated (.lone (.array (.lone (.number .u16)) 2))))))
    (.cons (.cow (.number .u32)) (.cons (.number .u8) .nil)))

theorem Ty.runFromBytes_returns_guarded :
    (guarded.runFromBytes [2, 0, 0, 0, 4, 3, 2, 1, 9, 0, 1, 5]).returns = true :=
  (Ty.runFromBytes_total_iff guarded
    ⟨trivial, ⟨by decide, by decide, trivial⟩, trivial, trivial⟩).mpr
    ⟨⟨.inr trivial, by decide, trivial, by decide, trivial, by decide, trivial⟩,
      .inr trivial, trivial, trivial, trivial⟩ _

/-- `struct { unit: Unit, c: Cow<u32> }` with `struct Unit;` -/
def unitCow : Ty :=
  .struct (.cons (.delegated (.struct .nil)) (.cons (.cow (.number .u32)) .nil))

/-- `struct { s: S }` with `struct S { p: Cow<P> }` -/
def cowInside : Ty := .struct (.cons (.delegated cowPoint) .nil)

/-- A string of one byte that is missing; no bytes at all, where the first field is sliced from
the fourth on; and a number that is there, but in a struct whose length is not found. -/
theorem Ty.runFromBytes_not_returns :
    (Ty.lone .string).Accepted ∧ (Ty.lone .string).runFromBytes [1, 0, 0, 0] = .panic ∧
    unitCow.Accepted ∧ unitCow.runFromBytes [] = .panic ∧
    cowInside.Accepted ∧ cowInside.runFromBytes [1, 0] = .hang :=
  ⟨trivial, by decide +kernel, ⟨trivial, ⟨by decide, by decide, trivial⟩, trivial⟩, rfl,
    ⟨⟨⟨by decide, by decide, trivial, trivial⟩, trivial⟩, trivial⟩, rfl⟩

end MiniUdp.Derive
