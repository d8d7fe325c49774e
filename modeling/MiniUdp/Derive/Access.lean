import MiniUdp.Derive.Within
import MiniUdp.Lib.Access

/-!
# The accesses of a writer

Where a derived writer touches its buffer depends on the value alone. `Ty.accesses`
are the places in their order: the fixed parts and the strings are checked, what
has a writer of its own gets a slice from `byte_ptr` on. They decide on which
buffers the writer returns a value, an error, or panics (`Ty.accesses_spec`).
-/

namespace MiniUdp

open Access

/-! ## Writers with known accesses -/

/-- What comes of a program by its first access out of bounds. -/
def outcome {α : Type} (r : α) : Option Access → Res α
  | none => .ok r
  | some (.checked _) => .err .sliceTooShort
  | some (.sliced _) => .panic

variable {α β : Type}

/-- Whatever is in the buffer, the writer touches it in these places and then returns `r`. -/
structure Accesses (w : Write α) (xs : List Access) (r : α) : Prop where
  length : ∀ bytes, (w bytes).1.length = bytes.length
  result : ∀ bytes, (w bytes).2 = outcome r (firstBeyond bytes.length xs)
  frame : ∀ bytes m, reach xs ≤ m → (w bytes).1.drop m = bytes.drop m

namespace Accesses

variable {w : Write α} {f : α → Write β} {xs ys : List Access} {r : α} {r' : β}

theorem pure (r : α) : Accesses (Pure.pure r) [] r := ⟨fun _ => rfl, fun _ => rfl, fun _ _ _ => rfl⟩

theorem bind (h : Accesses w xs r) (hf : Accesses (f r) ys r') :
    Accesses (w >>= f) (xs ++ ys) r' := by
  have hw : ∀ bytes, (w >>= f) bytes =
      match firstBeyond bytes.length xs with
      | none => f r (w bytes).1
      | some (.checked _) => ((w bytes).1, .err .sliceTooShort)
      | some (.sliced _) => ((w bytes).1, .panic) := by
    intro bytes
    have hresult := h.result bytes
    show Write.bind w f bytes = _
    unfold Write.bind
    rcases hwb : w bytes with ⟨bytes', res⟩
    rw [hwb] at hresult
    obtain rfl : res = _ := hresult
    rcases firstBeyond bytes.length xs with _ | _ | _ <;> rfl
  refine ⟨fun bytes => ?_, fun bytes => ?_, fun bytes m hm => ?_⟩
  · rw [hw]
    split
    · rw [hf.length, h.length]
    all_goals exact h.length bytes
  · rw [hw, firstBeyond_append]
    split <;> rename_i he <;> rw [he]
    · rw [hf.result, h.length]
      rfl
    all_goals rfl
  · rw [reach_append] at hm
    have hw' := h.frame bytes m (by omega)
    rw [hw]
    split
    · rw [hf.frame _ m (by omega), hw']
    all_goals exact hw'

theorem bind_pure (h : Accesses w xs r) (r' : β) :
    Accesses (w >>= fun _ => Pure.pure r') xs r' := by
  have hb := h.bind (f := fun _ => Pure.pure r') (.pure r')
  rwa [List.append_nil] at hb

theorem range (a : Nat) (bs : Bytes) :
    Accesses (Write.range a bs) [.checked (a + bs.length)] () := by
  refine ⟨Write.length_range a bs, fun bytes => ?_, fun bytes m hm => ?_⟩
  · unfold Write.range
    rw [firstBeyond_cons, need]
    by_cases h : a + bs.length ≤ bytes.length
    · rw [if_pos h, if_neg (Nat.not_lt.mpr h)]
      rfl
    · rw [if_neg h, if_pos (Nat.lt_of_not_le h)]
      rfl
  · simp only [reach, need, Nat.max_zero] at hm
    obtain ⟨k, rfl⟩ := Nat.exists_eq_add_of_le hm
    unfold Write.range
    split
    · have hlen : (bytes.take a ++ bs).length = a + bs.length := by simp; omega
      rw [← List.drop_drop, ← hlen, List.drop_left, List.drop_drop]
    · rfl

theorem suffix {w : Write Unit} (a : Nat) (h : Accesses w xs ()) :
    Accesses (Write.suffix a w) (.sliced a :: xs.map (shift a)) () := by
  refine ⟨Write.length_suffix a h.length, fun bytes => ?_, fun bytes m hm => ?_⟩
  · unfold Write.suffix
    rw [firstBeyond_cons, need]
    by_cases ha : a ≤ bytes.length
    · rw [if_pos ha, if_neg (Nat.not_lt.mpr ha), firstBeyond_shift ha]
      show (w (bytes.drop a)).2 = _
      rw [h.result, List.length_drop]
      rcases firstBeyond (bytes.length - a) xs with _ | _ | _ <;> rfl
    · rw [if_neg ha, if_pos (Nat.lt_of_not_le ha)]
      rfl
  · change max a (reach (xs.map (shift a))) ≤ m at hm
    rw [max_reach_shift] at hm
    obtain ⟨k, rfl⟩ := Nat.exists_eq_add_of_le (Nat.le_trans (Nat.le_add_right a _) hm)
    unfold Write.suffix
    split
    · rename_i ha
      have hlen : (bytes.take a).length = a := by simp; omega
      have hdrop : (bytes.take a ++ (w (bytes.drop a)).1).drop a = (w (bytes.drop a)).1 := by
        nth_rw 1 [← hlen]
        exact List.drop_left
      show (bytes.take a ++ (w (bytes.drop a)).1).drop (a + k) = _
      rw [← List.drop_drop, hdrop, h.frame _ k (by omega), List.drop_drop]
    · rfl

end Accesses

namespace Derive

/-! ## Derived writers -/

/-- The access of a fixed part, none if there is nothing to write yet. -/
def Value.fixedAccesses (v : Value) (o : ByteOffset) (bytePtr : Nat) : List Access :=
  if v.skipsFixedPart || v.fixedBytes == 0 then [] else [.checked (o.get bytePtr + v.fixedBytes)]

/-- `byte_ptr` after the fixed part. -/
def Value.fixedNext (v : Value) (o : ByteOffset) (bytePtr : Nat) : Nat :=
  if v.skipsFixedPart then bytePtr else o.next v.fixedBytes bytePtr

/-- `byte_ptr` after the variable part. -/
def Value.next : (v : Value) → ByteOffset → v.Val → Nat → Nat
  | .emptyTuple, _, _, bytePtr | .bool, _, _, bytePtr | .number _, _, _, bytePtr
  | .option _, _, none, bytePtr => bytePtr
  | .string, _, s, bytePtr => bytePtr + (Utf8.asBytes s).length
  | .cow v, o, x, bytePtr => v.next o x.get (v.fixedNext o bytePtr)
  | .option v, _, some x, bytePtr => v.next .dynamic x (v.fixedNext .dynamic bytePtr)
  | .array t _, _, xs, bytePtr => bytePtr + (xs.val.map t.byteLen).sum
  | .vec t, _, xs, bytePtr => bytePtr + (xs.map t.byteLen).sum
  | .delegated t, _, x, bytePtr => bytePtr + t.byteLen x

def Fields.fixedAccesses : Fields → Nat → List Access
  | .nil, _ => []
  | .cons v fs, offset =>
    v.fixedAccesses (.static offset) 0 ++ fs.fixedAccesses (offset + v.fixedBytes)

def Fields.next : (fs : Fields) → Nat → fs.Val → Nat → Nat
  | .nil, _, _, bytePtr => bytePtr
  | .cons v fs, offset, (x, xs), bytePtr =>
    fs.next (offset + v.fixedBytes) xs (v.next (.static offset) x bytePtr)

def itemAccesses {α : Type} (accesses : α → List Access) (byteLen : α → Nat) :
    List α → Nat → List Access
  | [], _ => []
  | item :: items, bytePtr => .sliced bytePtr :: (accesses item).map (shift bytePtr) ++
    itemAccesses accesses byteLen items (bytePtr + byteLen item)

mutual

/-- The accesses of the variable part. -/
def Value.accesses : (v : Value) → ByteOffset → v.Val → Nat → List Access
  | .emptyTuple, _, _, _ | .bool, _, _, _ | .number _, _, _, _ | .option _, _, none, _ => []
  | .string, _, s, bytePtr => [.checked (bytePtr + (Utf8.asBytes s).length)]
  | .cow v, o, x, bytePtr =>
    v.fixedAccesses o bytePtr ++ v.accesses o x.get (v.fixedNext o bytePtr)
  | .option v, _, some x, bytePtr =>
    v.fixedAccesses .dynamic bytePtr ++ v.accesses .dynamic x (v.fixedNext .dynamic bytePtr)
  | .array t _, _, xs, bytePtr => itemAccesses t.accesses t.byteLen xs.val bytePtr
  | .vec t, _, xs, bytePtr => itemAccesses t.accesses t.byteLen xs bytePtr
  | .delegated t, _, x, bytePtr => .sliced bytePtr :: (t.accesses x).map (shift bytePtr)

/-- The accesses of `write_to_bytes`. -/
def Ty.accesses : (t : Ty) → t.Val → List Access
  | .lone v, x => v.fixedAccesses (.static 0) 0 ++ v.accesses (.static 0) x v.fixedBytes
  | .struct fs, x => fs.fixedAccesses 0 ++ fs.accesses 0 x fs.fixedBytes
  | .enum vs, x =>
    vs.accesses vs.variantLen x ++ if vs.length ≤ 1 then [] else [.checked 1]

def Fields.accesses : (fs : Fields) → Nat → fs.Val → Nat → List Access
  | .nil, _, _, _ => []
  | .cons v fs, offset, (x, xs), bytePtr => v.accesses (.static offset) x bytePtr ++
    fs.accesses (offset + v.fixedBytes) xs (v.next (.static offset) x bytePtr)

def Variants.accesses : (vs : Variants) → Nat → vs.Val → List Access
  | .nil, _, x => nomatch x
  | .cons fs _, variantLen, .inl x =>
    fs.fixedAccesses variantLen ++ fs.accesses variantLen x (variantLen + fs.fixedBytes)
  | .cons _ vs, variantLen, .inr x => vs.accesses variantLen x

end

theorem range_accesses {o : ByteOffset} {bs : Bytes} {bytePtr len : Nat} (hlen : bs.length = len)
    (hpos : 0 < len) (v : Value) (hskips : v.skipsFixedPart = false) (hv : v.fixedBytes = len) :
    Accesses (do Write.range (o.get bytePtr) bs; Pure.pure (o.next len bytePtr))
      (v.fixedAccesses o bytePtr) (v.fixedNext o bytePtr) := by
  have hzero : (v.fixedBytes == 0) = false := beq_false_of_ne (by omega)
  rw [Value.fixedAccesses, Value.fixedNext, hskips, hzero, hv, ← hlen]
  exact (Accesses.range _ bs).bind_pure _

theorem Value.fixedAccesses_spec {o : ByteOffset} {bytePtr : Nat} : (v : Value) → (x : v.Val) →
    Accesses (v.writeFixedPart o x bytePtr) (v.fixedAccesses o bytePtr) (v.fixedNext o bytePtr)
  | .emptyTuple, _ | .array _ _, _ | .delegated _, _ => by
    cases o <;> exact .pure _
  | .bool, b => range_accesses (show [flag b].length = 1 from rfl) Nat.one_pos .bool rfl rfl
  | .option v, x =>
    range_accesses (show [flag x.isSome].length = 1 from rfl) Nat.one_pos (.option v) rfl rfl
  | .number n, _ => range_accesses (length_toLe n.bytes _) n.bytes_pos (.number n) rfl rfl
  | .string, _ => range_accesses (length_lenBytes _) (by decide) .string rfl rfl
  | .vec t, _ => range_accesses (length_lenBytes _) (by decide) (.vec t) rfl rfl
  | .cow v, x => by
    by_cases hskips : (Value.cow v).skipsFixedPart = true
    · rw [writeFixedPart_of_skips _ hskips, fixedAccesses, fixedNext, hskips]
      exact .pure _
    · have hstatic : v.isStatic = true := by simpa [skipsFixedPart, isCow, isStatic] using hskips
      have hv : v.skipsFixedPart = (Value.cow v).skipsFixedPart := by
        simp [skipsFixedPart, isStatic, hstatic]
      have haccesses : (Value.cow v).fixedAccesses o bytePtr = v.fixedAccesses o bytePtr := by
        rw [fixedAccesses, fixedAccesses, hv, fixedBytes]
      have hnext : (Value.cow v).fixedNext o bytePtr = v.fixedNext o bytePtr := by
        rw [fixedNext, fixedNext, hv, fixedBytes]
      rw [writeFixedPart, if_pos hstatic, haccesses, hnext]
      exact v.fixedAccesses_spec x.get

theorem Fields.fixedAccesses_spec : (fs : Fields) → (offset : Nat) → (x : fs.Val) →
    Accesses (fs.writeFixedPart offset x) (fs.fixedAccesses offset) ()
  | .nil, _, _ => .pure ()
  | .cons v fs, offset, (x, xs) =>
    (v.fixedAccesses_spec x).bind (fs.fixedAccesses_spec (offset + v.fixedBytes) xs)

theorem itemAccesses_spec {α : Type} {write : α → Write Unit} {accesses : α → List Access}
    {byteLen : α → Nat} {xs : List α} (h : ∀ x ∈ xs, Accesses (write x) (accesses x) ())
    (bytePtr : Nat) :
    Accesses (writeItems write byteLen xs bytePtr) (itemAccesses accesses byteLen xs bytePtr)
      (bytePtr + (xs.map byteLen).sum) := by
  induction xs generalizing bytePtr with
  | nil => exact .pure _
  | cons x xs ih =>
    have hx := (h x List.mem_cons_self).suffix bytePtr
    have hxs := ih (fun y hy => h y (List.mem_cons_of_mem x hy)) (bytePtr + byteLen x)
    rw [List.map_cons, List.sum_cons, ← Nat.add_assoc]
    exact hx.bind (f := fun _ => writeItems write byteLen xs (bytePtr + byteLen x)) hxs

mutual

theorem Value.accesses_spec : (v : Value) → ∀ o x bytePtr,
    Accesses (v.writeVariablePart o x bytePtr) (v.accesses o x bytePtr) (v.next o x bytePtr)
  | .emptyTuple, _, _, _ | .bool, _, _, _ | .number _, _, _, _ | .option _, _, none, _ => .pure _
  | .string, _, _, _ => (Accesses.range _ _).bind_pure _
  | .cow v, o, x, _ => (v.fixedAccesses_spec x.get).bind (v.accesses_spec o x.get _)
  | .option v, _, some x, _ => (v.fixedAccesses_spec x).bind (v.accesses_spec .dynamic x _)
  | .array t _, _, _, bytePtr => itemAccesses_spec (fun x _ => t.accesses_spec x) bytePtr
  | .vec t, _, _, bytePtr => itemAccesses_spec (fun x _ => t.accesses_spec x) bytePtr
  | .delegated t, _, x, bytePtr => ((t.accesses_spec x).suffix bytePtr).bind_pure _

/-- `write_to_bytes` touches the buffer in these places, in this order. -/
theorem Ty.accesses_spec : (t : Ty) → ∀ x, Accesses (t.writeToBytes x) (t.accesses x) ()
  | .lone v, x => (v.fixedAccesses_spec x).bind ((v.accesses_spec _ x _).bind_pure ())
  | .struct fs, x => (fs.fixedAccesses_spec 0 x).bind ((fs.accesses_spec 0 x _).bind_pure ())
  | .enum vs, x => by
    obtain ⟨variantId, hvariant⟩ := vs.accesses_spec vs.variantLen x
    refine hvariant.bind ?_
    split
    · exact .pure ()
    · exact Accesses.range 0 _

theorem Fields.accesses_spec : (fs : Fields) → ∀ offset x bytePtr,
    Accesses (fs.writeVariablePart offset x bytePtr) (fs.accesses offset x bytePtr)
      (fs.next offset x bytePtr)
  | .nil, _, _, _ => .pure _
  | .cons v fs, _, (x, xs), bytePtr =>
    (v.accesses_spec _ x bytePtr).bind (fs.accesses_spec _ xs _)

theorem Variants.accesses_spec : (vs : Variants) → ∀ variantLen x, ∃ variantId,
    Accesses (vs.write variantLen x) (vs.accesses variantLen x) variantId
  | .nil, _, x => nomatch x
  | .cons fs _, variantLen, .inl x =>
    ⟨0, (fs.fixedAccesses_spec variantLen x).bind ((fs.accesses_spec _ x _).bind_pure 0)⟩
  | .cons _ vs, variantLen, .inr x => by
    obtain ⟨variantId, h⟩ := vs.accesses_spec variantLen x
    have hbind := h.bind (f := fun variantId => Pure.pure (variantId + 1)) (.pure (variantId + 1))
    rw [List.append_nil] at hbind
    exact ⟨variantId + 1, hbind⟩

end

end Derive

end MiniUdp
