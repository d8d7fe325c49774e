import MiniUdp.Derive.Encode

/-!
# Writers and the length of their buffer

`Within` says what is known of a writer that returns a value, from the length
of the buffer alone. A derived writer that returns a value had `byte_len`
bytes, and as many again for what it wrote twice (`Ty.within`).
-/

namespace MiniUdp

variable {α β : Type}

/-- On a buffer of `n` bytes the writer keeps the length, and a value it returns is in `post`. -/
def Within (n : Nat) (w : Write α) (post : α → Prop) : Prop :=
  ∀ bytes : Bytes, bytes.length = n → (w bytes).1.length = n ∧ ∀ r, (w bytes).2 = .ok r → post r

namespace Within

variable {n : Nat} {w : Write α} {f : α → Write β} {post post' : α → Prop} {post2 : β → Prop}

theorem pure {r : α} (h : post r) : Within n (Pure.pure r) post := fun _ hlen =>
  ⟨hlen, fun _ hr => Outcome.ok.inj hr ▸ h⟩

theorem mono (h : Within n w post) (himp : ∀ r, post r → post' r) : Within n w post' :=
  fun bytes hlen => ⟨(h bytes hlen).1, fun r hr => himp r ((h bytes hlen).2 r hr)⟩

theorem bind (h : Within n w post) (hf : ∀ r, post r → Within n (f r) post2) :
    Within n (w >>= f) post2 := by
  intro bytes hlen
  show (Write.bind w f bytes).1.length = n ∧ ∀ r, (Write.bind w f bytes).2 = .ok r → post2 r
  obtain ⟨hkeep, hpost⟩ := h bytes hlen
  unfold Write.bind
  rcases hw : w bytes with ⟨bytes', r | e | - | -⟩ <;> rw [hw] at hkeep hpost
  · exact hf r (hpost r rfl) bytes' hkeep
  all_goals exact ⟨hkeep, fun r hr => by cases hr⟩

theorem bind_pure {r : β} (h : Within n w post) (hr : ∀ a, post a → post2 r) :
    Within n (w >>= fun _ => Pure.pure r) post2 :=
  h.bind fun a ha => .pure (hr a ha)

theorem range (a : Nat) (bs : Bytes) : Within n (Write.range a bs) fun _ => a + bs.length ≤ n := by
  intro bytes hlen
  refine ⟨(Write.length_range a bs bytes).trans hlen, fun r hr => ?_⟩
  by_contra hno
  rw [Write.range, if_neg (by omega)] at hr
  cases hr

theorem suffix {a : Nat} {w : Write Unit} {post : Unit → Prop} (h : Within (n - a) w post) :
    Within n (Write.suffix a w) fun r => a ≤ n ∧ post r := by
  intro bytes hlen
  unfold Write.suffix
  by_cases ha : a ≤ bytes.length
  · obtain ⟨hkeep, hpost⟩ := h (bytes.drop a) (by rw [List.length_drop, hlen])
    rw [if_pos ha]
    refine ⟨?_, fun r hr => ⟨by omega, hpost r hr⟩⟩
    simp only [List.length_append, List.length_take, hkeep]
    omega
  · rw [if_neg ha]
    exact ⟨hlen, fun r hr => by cases hr⟩

end Within

namespace Derive

open Utf8

/-! ## Written twice -/

/-- The code for the value itself writes its bytes once. -/
def Value.OwnSingle : (v : Value) → v.Val → Prop
  | .cow v, x => v.OwnSingle x.get
  | .option v, some x => (v.isCow = true → v.isStatic = false) ∧ v.OwnSingle x
  | .option _, none | .emptyTuple, _ | .bool, _ | .number _, _ | .string, _ | .array _ _, _
  | .vec _, _ | .delegated _, _ => True

def Fields.OwnSingle : (fs : Fields) → fs.Val → Prop
  | .nil, _ => True
  | .cons v fs, (x, xs) => v.OwnSingle x ∧ fs.OwnSingle xs

def Variants.OwnSingle : (vs : Variants) → vs.Val → Prop
  | .nil, x => nomatch x
  | .cons fs _, .inl x => fs.OwnSingle x
  | .cons _ vs, .inr x => vs.OwnSingle x

def Ty.OwnSingle : (t : Ty) → t.Val → Prop
  | .lone v, x => v.OwnSingle x
  | .struct fs, x => fs.OwnSingle x
  | .enum vs, x => vs.OwnSingle x

/-! ## Items and fixed parts -/

section

variable {n : Nat}

theorem writeItems_within {α : Type} {write : α → Write Unit} {byteLen : α → Nat} {xs : List α}
    (h : ∀ x ∈ xs, ∀ n, Within n (write x) fun _ => byteLen x ≤ n) (bytePtr : Nat) :
    Within n (writeItems write byteLen xs bytePtr) fun r =>
      r = bytePtr + (xs.map byteLen).sum ∧ (bytePtr ≤ n → r ≤ n) := by
  induction xs generalizing bytePtr with
  | nil => exact .pure ⟨rfl, id⟩
  | cons x xs ih =>
    refine (h x List.mem_cons_self (n - bytePtr)).suffix.bind fun _ ⟨hptr, hlen⟩ => ?_
    refine (ih (fun y hy => h y (List.mem_cons_of_mem x hy)) _).mono fun r ⟨hr, hle⟩ => ?_
    rw [List.map_cons, List.sum_cons]
    exact ⟨by omega, fun _ => hle (by omega)⟩

theorem range_within {o : ByteOffset} {bs : Bytes} {bytePtr len : Nat} (hlen : bs.length = len) :
    Within n (do Write.range (o.get bytePtr) bs; pure (o.next len bytePtr)) fun r =>
      r = o.next len bytePtr ∧ InBounds n (o.get bytePtr) len :=
  (Within.range _ _).bind_pure fun _ h => ⟨rfl, .inr (hlen ▸ h)⟩

theorem Value.writeFixedPart_within {o : ByteOffset} {bytePtr : Nat} : (v : Value) → (x : v.Val) →
    v.skipsFixedPart = false →
    Within n (v.writeFixedPart o x bytePtr) fun r =>
      r = o.next v.fixedBytes bytePtr ∧ InBounds n (o.get bytePtr) v.fixedBytes
  | .emptyTuple, _, _ | .array _ _, _, _ | .delegated _, _, _ =>
    .pure ⟨by cases o <;> rfl, .inl rfl⟩
  | .bool, _, _ | .option _, _, _ => range_within rfl
  | .number n, _, _ => range_within (length_toLe n.bytes _)
  | .string, _, _ | .vec _, _, _ => range_within (length_lenBytes _)
  | .cow v, x, h => by
    have hstatic : v.isStatic = true := by simpa [skipsFixedPart, isCow, isStatic] using h
    have hskips : v.skipsFixedPart = false := by simp [skipsFixedPart, hstatic]
    rw [writeFixedPart, if_pos hstatic]
    exact v.writeFixedPart_within x.get hskips

/-! ## Variable parts -/

/-- What is known after the variable part of a field, at a fixed offset and in an `Option`. -/
structure Value.Bounds (n : Nat) (v : Value) (x : v.Val) : Prop where
  static : ∀ offset bytePtr, Within n (v.writeVariablePart (.static offset) x bytePtr) fun r =>
    bytePtr + v.unknownLength x ≤ r ∧ (bytePtr ≤ n → r ≤ n) ∧
    (r = bytePtr + v.unknownLength x → v.OwnSingle x) ∧
    (v.isCow = true → InBounds n offset v.fixedBytes)
  dynamic : ∀ bytePtr, Within n (v.writeInner .dynamic x bytePtr) fun r =>
    bytePtr + (v.fixedBytes + v.unknownLength x) ≤ r ∧ (bytePtr ≤ n → r ≤ n) ∧
    (r = bytePtr + (v.fixedBytes + v.unknownLength x) →
      (v.isCow = true → v.isStatic = false) ∧ v.OwnSingle x)

/-- A field that is no `Cow` has its variable part at `byte_ptr`. -/
theorem Value.Bounds.of_bytePtr {v : Value} {x : v.Val} (hcow : v.isCow = false)
    (h : ∀ o bytePtr, Within n (v.writeVariablePart o x bytePtr) fun r =>
      bytePtr + v.unknownLength x ≤ r ∧ (bytePtr ≤ n → r ≤ n) ∧
      (r = bytePtr + v.unknownLength x → v.OwnSingle x)) : v.Bounds n x where
  static offset bytePtr := (h _ bytePtr).mono fun r hr =>
    ⟨hr.1, hr.2.1, hr.2.2, fun h => absurd h (by simp [hcow])⟩
  dynamic bytePtr := by
    have hskips : v.skipsFixedPart = false := by rw [skipsFixedPart, hcow, Bool.false_and]
    refine (v.writeFixedPart_within x hskips).bind fun r hfixed => ?_
    refine (h .dynamic r).mono fun r' hvariable => ?_
    obtain ⟨hr, hin⟩ := hfixed
    obtain ⟨hle, hn, hsingle⟩ := hvariable
    have hptr : bytePtr ≤ n → r ≤ n := by
      unfold InBounds at hin
      simp only [ByteOffset.get, ByteOffset.next] at hr hin
      omega
    simp only [ByteOffset.next] at hr
    subst hr
    exact ⟨by omega, fun hb => hn (hptr hb),
      fun he => ⟨fun h => absurd h (by simp [hcow]), hsingle (by omega)⟩⟩

theorem Value.Bounds.of_static {v : Value} {x : v.Val} (hcow : v.isCow = false)
    (hempty : v.unknownLength x = 0) (hsingle : v.OwnSingle x)
    (h : ∀ o bytePtr, v.writeVariablePart o x bytePtr = pure bytePtr) : v.Bounds n x :=
  .of_bytePtr hcow fun o bytePtr => by
    rw [h, hempty]
    exact .pure ⟨Nat.le_refl _, id, fun _ => hsingle⟩

theorem Value.Bounds.cow {v : Value} {x : Cow v.Val} (hzero : v.isStatic = true → v.fixedBytes ≠ 0)
    (h : v.Bounds n x.get) : Value.Bounds n (.cow v) x where
  static offset bytePtr := by
    show Within n (v.writeInner (.static offset) x.get bytePtr) _
    by_cases hskips : v.skipsFixedPart = true
    · have hcow : v.isCow = true := v.skipsFixedPart_or_isCow.resolve_left (by simp [hskips])
      rw [writeInner, v.writeFixedPart_of_skips hskips]
      refine (h.static offset bytePtr).mono fun r hvariable => ?_
      obtain ⟨hle, hn, hsingle, hin⟩ := hvariable
      exact ⟨hle, hn, hsingle, fun _ => hin hcow⟩
    · refine (v.writeFixedPart_within x.get (by simpa using hskips)).bind fun r hfixed => ?_
      obtain ⟨hr, hin⟩ := hfixed
      obtain rfl : r = bytePtr := hr
      refine (h.static offset r).mono fun r' hvariable => ?_
      obtain ⟨hle, hn, hsingle, -⟩ := hvariable
      exact ⟨hle, hn, hsingle, fun _ => hin⟩
  dynamic bytePtr := by
    by_cases hstatic : v.isStatic = true
    · have hskips : (Value.cow v).skipsFixedPart = false := by
        simp [skipsFixedPart, isStatic, hstatic]
      refine ((Value.cow v).writeFixedPart_within x hskips).bind fun r hfixed => ?_
      obtain ⟨hr, hin⟩ := hfixed
      obtain rfl : r = bytePtr + v.fixedBytes := hr
      have hpos := hzero hstatic
      refine (h.dynamic (bytePtr + v.fixedBytes)).mono fun r' hvariable => ?_
      obtain ⟨hle, hn, -⟩ := hvariable
      have hin' : v.fixedBytes = 0 ∨ bytePtr + v.fixedBytes ≤ n := hin
      show bytePtr + (v.fixedBytes + v.unknownLength x.get) ≤ r' ∧ _ ∧
        (r' = bytePtr + (v.fixedBytes + v.unknownLength x.get) → _)
      exact ⟨by omega, fun _ => hn (by omega), fun he => by omega⟩
    · have hskips : (Value.cow v).skipsFixedPart = true := by
        simp [skipsFixedPart, isCow, isStatic, hstatic]
      rw [writeInner, (Value.cow v).writeFixedPart_of_skips hskips]
      refine (h.dynamic bytePtr).mono fun r hvariable => ?_
      obtain ⟨hle, hn, hsingle⟩ := hvariable
      exact ⟨hle, hn, fun he => ⟨fun _ => by simpa [isStatic] using hstatic, (hsingle he).2⟩⟩

theorem Value.Bounds.some {v : Value} {x : v.Val} (h : v.Bounds n x) :
    Value.Bounds n (.option v) (Option.some x) :=
  .of_bytePtr rfl fun _ bytePtr => h.dynamic bytePtr

theorem Value.Bounds.items {v : Value} {x : v.Val} {t : Ty} (xs : List t.Val)
    (hcow : v.isCow = false) (hsingle : v.OwnSingle x)
    (hlen : v.unknownLength x = (xs.map t.byteLen).sum)
    (hw : ∀ o bytePtr, v.writeVariablePart o x bytePtr =
      writeItems t.writeToBytes t.byteLen xs bytePtr)
    (h : ∀ x ∈ xs, ∀ n, Within n (t.writeToBytes x) fun _ => t.byteLen x ≤ n) : v.Bounds n x :=
  .of_bytePtr hcow fun o bytePtr => by
    rw [hw, hlen]
    exact (writeItems_within h bytePtr).mono fun r ⟨hr, hle⟩ => ⟨hr.ge, hle, fun _ => hsingle⟩

theorem Value.Bounds.delegated {t : Ty} {x : t.Val}
    (h : ∀ n, Within n (t.writeToBytes x) fun _ => t.byteLen x ≤ n) :
    Value.Bounds n (.delegated t) x :=
  .of_bytePtr rfl fun _ bytePtr => (h (n - bytePtr)).suffix.bind_pure fun _ ⟨_, hlen⟩ =>
    ⟨Nat.le_refl _, fun _ => by omega, fun _ => trivial⟩

/-! ## Fields in a row -/

theorem Fields.writeFixedPart_within : (fs : Fields) → (x : fs.Val) → (offset : Nat) →
    Within n (fs.writeFixedPart offset x) fun _ =>
      fs.FixedInBounds n (fun v => v.skipsFixedPart = false) offset
  | .nil, _, _ => .pure trivial
  | .cons v fs, (x, xs), offset => by
    have hrest := fs.writeFixedPart_within xs (offset + v.fixedBytes)
    by_cases hskips : v.skipsFixedPart = true
    · rw [writeFixedPart, v.writeFixedPart_of_skips hskips]
      exact hrest.mono fun _ h => ⟨fun h' => absurd h' (by simp [hskips]), h⟩
    · refine (v.writeFixedPart_within (o := .static offset) x (by simpa using hskips)).bind
        fun _ ⟨_, hin⟩ => hrest.mono fun _ h => ⟨fun _ => hin, h⟩

def Fields.Bounds (n : Nat) (fs : Fields) (x : fs.Val) : Prop :=
  ∀ offset bytePtr, Within n (fs.writeVariablePart offset x bytePtr) fun r =>
    bytePtr + fs.unknownLength x ≤ r ∧ (bytePtr ≤ n → r ≤ n) ∧
    (r = bytePtr + fs.unknownLength x → fs.OwnSingle x) ∧
    fs.FixedInBounds n (fun v => v.isCow = true) offset

theorem Fields.Bounds.cons {v : Value} {fs : Fields} {x : v.Val} {xs : fs.Val}
    (hv : v.Bounds n x) (hfs : fs.Bounds n xs) : Fields.Bounds n (.cons v fs) (x, xs) := by
  intro offset bytePtr
  refine (hv.static offset bytePtr).bind fun r ⟨hle, hn, hsingle, hin⟩ => ?_
  refine (hfs (offset + v.fixedBytes) r).mono fun r' ⟨hle', hn', hsingle', hin'⟩ => ?_
  rw [unknownLength]
  exact ⟨by omega, fun h => hn' (hn h), fun he => ⟨hsingle (by omega), hsingle' (by omega)⟩,
    hin, hin'⟩

/-- Both parts of the fields, one after the other. -/
theorem Fields.Bounds.both {fs : Fields} {x : fs.Val} (h : fs.Bounds n x) (offset : Nat)
    {α : Type} (r : α) :
    Within n (do
        fs.writeFixedPart offset x
        let _ ← fs.writeVariablePart offset x (offset + fs.fixedBytes)
        pure r) fun _ => offset ≤ n → offset + (fs.fixedBytes + fs.unknownLength x) ≤ n ∧
      (n = offset + (fs.fixedBytes + fs.unknownLength x) → fs.OwnSingle x) := by
  refine (fs.writeFixedPart_within x offset).bind fun _ hfixed => ?_
  refine (h offset (offset + fs.fixedBytes)).bind_pure fun r ⟨hle, hn, hsingle, hcow⟩ hoff => ?_
  have hin := Fields.FixedInBounds.all Value.skipsFixedPart_or_isCow fs hfixed hcow
  unfold InBounds at hin
  have hr := hn (by omega)
  exact ⟨by omega, fun he => hsingle (by omega)⟩

end

/-! ## Every type -/

mutual

theorem Value.bounds : (v : Value) → v.Accepted → (x : v.Val) → (n : Nat) → v.Bounds n x
  | .emptyTuple, _, _, _ | .bool, _, _, _ | .number _, _, _, _ | .option _, _, none, _ =>
    .of_static rfl rfl trivial fun _ _ => rfl
  | .string, _, _, _ => .of_bytePtr rfl fun _ _ => (Within.range _ _).bind_pure fun _ h =>
    ⟨Nat.le_refl _, fun _ => h, fun _ => trivial⟩
  | .cow v, h, x, n => .cow h.2.1 (v.bounds h.2.2 x.get n)
  | .option v, h, some x, n => .some (v.bounds h x n)
  | .array t _, h, xs, _ => .items xs.val rfl trivial rfl (fun _ _ => rfl)
    fun x _ n => (t.within h x n).mono fun _ h => h.1
  | .vec t, h, xs, _ => .items xs rfl trivial rfl (fun _ _ => rfl)
    fun x _ n => (t.within h x n).mono fun _ h => h.1
  | .delegated t, h, x, _ => .delegated fun n => (t.within h x n).mono fun _ h => h.1

/-- A writer that returns a value had `byte_len` bytes, and more if it wrote some twice. -/
theorem Ty.within : (t : Ty) → t.Accepted → (x : t.Val) → (n : Nat) →
    Within n (t.writeToBytes x) fun _ => t.byteLen x ≤ n ∧ (n = t.byteLen x → t.OwnSingle x)
  | .lone v, h, x, n => by
    have hfields : Fields.Bounds n (.cons v .nil) (x, ()) :=
      .cons (v.bounds h x n) fun _ _ => .pure ⟨Nat.le_refl _, id, fun _ => trivial, trivial⟩
    have hboth := hfields.both 0 ()
    simp only [Fields.writeFixedPart, Fields.writeVariablePart, Fields.fixedBytes, bind_assoc,
      pure_bind, Nat.add_zero, Nat.zero_add] at hboth
    exact hboth.mono fun _ h => ⟨(h (Nat.zero_le n)).1, fun he => ((h (Nat.zero_le n)).2 he).1⟩
  | .struct fs, h, x, n => by
    have hboth := (fs.bounds h x n).both 0 ()
    simp only [Nat.zero_add] at hboth
    exact hboth.mono fun _ h => h (Nat.zero_le n)
  | .enum vs, h, x, n => by
    refine (vs.within h.2.2 x vs.variantLen n).bind fun r hr => ?_
    rw [Ty.byteLen, Nat.add_comm]
    by_cases hone : vs.length ≤ 1
    · rw [if_pos hone]
      exact .pure (hr (by rw [Variants.variantLen_of_le_one hone]; exact Nat.zero_le n))
    · rw [if_neg hone]
      refine (Within.range 0 _).mono fun _ htag => hr ?_
      rwa [Variants.variantLen_eq_one (by omega) h.2.1]

theorem Fields.bounds : (fs : Fields) → fs.Accepted → (x : fs.Val) → (n : Nat) → fs.Bounds n x
  | .nil, _, _, _ => fun _ _ => .pure ⟨Nat.le_refl _, id, fun _ => trivial, trivial⟩
  | .cons v fs, h, (x, xs), n => .cons (v.bounds h.1 x n) (fs.bounds h.2 xs n)

theorem Variants.within : (vs : Variants) → vs.Accepted → (x : vs.Val) → (offset n : Nat) →
    Within n (vs.write offset x) fun _ => offset ≤ n → offset + vs.asLength x ≤ n ∧
      (n = offset + vs.asLength x → vs.OwnSingle x)
  | .nil, _, x, _, _ => nomatch x
  | .cons fs _, h, .inl x, _, n => (fs.bounds h.1 x n).both _ 0
  | .cons _ vs, h, .inr x, offset, n => (vs.within h.2 x offset n).bind fun _ h => .pure h

end

end Derive

end MiniUdp
