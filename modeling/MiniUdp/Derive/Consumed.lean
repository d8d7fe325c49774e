import MiniUdp.Derive.Advance
import MiniUdp.Derive.NamedTypes

/-!
# What a decoder consumes

A decoder steps by `byte_len` of what it has decoded. That is what it has read,
unless a string was decoded from bytes that are no UTF-8: these become longer.
And it is not found when a `Cow` of a type with an impl of its own was decoded.
In the whole run of a decoder that returns a value, every call consumes
`byte_len` bytes just when neither happens, whatever the fields are called and
whoever captures whose header (`Ty.consumes_iff`).
-/

namespace MiniUdp.Derive

open Utf8

/-! ## Traces -/

/-- What a decoder does on the way: it makes a string of some bytes, makes a `Cow` of a type with an
impl of its own, or calls `from_bytes`. -/
inductive Event where
  | string (payload : Bytes)
  | cow
  | call (t : Ty) (ns : t.Names) (bytes : Bytes)

/-- The event of making a `Cow` of what is inside. -/
def Value.inCow (v : Value) : List Event := if v.isDelegated then [.cow] else []

/-- The events after a step that has returned a value. -/
def after {α : Type} (r : Res α) (events : α → List Event) : List Event :=
  match r with
  | .ok a => events a
  | _ => []

def traceItems {α : Type} (fromBytes : Bytes → Res α) (byteLen : α → Res Nat)
    (trace : Bytes → List Event) (bytes : Bytes) : Nat → Nat → List Event
  | 0, _ => []
  | n + 1, bytePtr => after (suffixFrom bytes bytePtr) fun rest =>
    trace rest ++ after (fromBytes rest) fun item => after (byteLen item) fun len =>
      traceItems fromBytes byteLen trace bytes n (bytePtr + len)

mutual

def Value.trace : (v : Value) → v.Names → ByteOffset → v.Fixed → Bytes → Nat → List Event
  | .emptyTuple, _, _, _, _, _ | .bool, _, _, _, _, _ | .number _, _, _, _, _, _ => []
  | .string, _, _, len, bytes, bytePtr =>
    after (sliceOf bytes bytePtr (bytePtr + len)) fun payload => [.string payload]
  | .cow v, ns, o, _, bytes, bytePtr => v.inCow ++
    after (v.readFixedPart o bytes bytePtr) fun (f, bytePtr) => v.trace ns o f bytes bytePtr
  | .option v, ns, _, isSome, bytes, bytePtr =>
    match isSome with
    | true => after (v.readFixedPart .dynamic bytes bytePtr) fun (f, bytePtr) =>
      v.trace ns .dynamic f bytes bytePtr
    | false => []
  | .array t length, ns, _, _, bytes, bytePtr =>
    traceItems (fun bytes => value (t.runReadNamed ns bytes)) t.runByteLen (t.trace ns) bytes length
      bytePtr
  | .vec t, ns, _, len, bytes, bytePtr =>
    traceItems (fun bytes => value (t.runReadNamed ns bytes)) t.runByteLen (t.trace ns) bytes len
      bytePtr
  | .delegated t, ns, _, _, bytes, bytePtr => after (suffixFrom bytes bytePtr) (t.trace ns)

/-- The call of `from_bytes` and all that happens in it. -/
def Ty.trace : (t : Ty) → t.Names → Bytes → List Event
  | .lone v, ns, bytes => .call (.lone v) ns bytes ::
    after (v.readFixedPart (.static 0) bytes 0) fun (f, _) =>
      v.trace ns (.static 0) f bytes v.fixedBytes
  | .struct fs, (names, ns), bytes => .call (.struct fs) (names, ns) bytes ::
    after (fs.readFixedPart 0 bytes) fun f =>
      after (fs.headers ns names 0 0 f (fs.letFixed names 0 f []) bytes fs.fixedBytes) fun f =>
        fs.trace ns 0 f bytes fs.fixedBytes
  | .enum vs, ns, bytes => .call (.enum vs) ns bytes ::
    if vs.length ≤ 1 then vs.trace ns vs.variantLen 0 bytes
    else after (readByte bytes 0) fun variantId => vs.trace ns vs.variantLen variantId.toNat bytes

def Fields.trace : (fs : Fields) → fs.Names → Nat → fs.Fixed → Bytes → Nat → List Event
  | .nil, _, _, _, _, _ => []
  | .cons v fs, (n, ns), offset, (f, rest), bytes, bytePtr =>
    v.trace n (.static offset) f bytes bytePtr ++
      after (v.readWith n (.static offset) f bytes bytePtr) fun (_, bytePtr) =>
        fs.trace ns (offset + v.fixedBytes) rest bytes bytePtr

def Variants.trace : (vs : Variants) → vs.Names → Nat → Nat → Bytes → List Event
  | .nil, _, _, _, _ => []
  | .cons fs _, ((names, n), _), variantLen, 0, bytes =>
    after (fs.readFixedPart variantLen bytes) fun f =>
      after (fs.headers n names 0 variantLen f (fs.letFixed names 0 f []) bytes
        (variantLen + fs.fixedBytes)) fun f =>
        fs.trace n variantLen f bytes (variantLen + fs.fixedBytes)
  | .cons _ vs, (_, ns), variantLen, variantId + 1, bytes => vs.trace ns variantLen variantId bytes

end

/-! ## Kept lengths, consumed bytes -/

/-- Every string is as long as the bytes it was made of. -/
def Kept (events : List Event) : Prop :=
  ∀ payload, .string payload ∈ events →
    (asBytes (fromUtf8Lossy payload)).length = payload.length

/-- No `Cow` of a type with an impl of its own is made. -/
def Clear (events : List Event) : Prop := .cow ∉ events

/-- A value that is returned has as many bytes as the decoder advanced over, these are there, and
it is read from just these, too. -/
def Ty.RunConsumes (t : Ty) (ns : t.Names) (bytes : Bytes) : Prop :=
  ∀ (x : t.Val) (n : Nat), t.runReadNamed ns bytes = .ok (x, n) →
    t.runByteLen x = .ok n ∧ n ≤ bytes.length ∧ t.fromBytesNamed ns (bytes.take n) = .ok x

def Consuming (events : List Event) : Prop :=
  ∀ t ns bytes, .call t ns bytes ∈ events → t.RunConsumes ns bytes

section

variable {es es' : List Event}

@[simp] theorem kept_nil : Kept [] := fun _ h => nomatch h

@[simp] theorem consuming_nil : Consuming [] := fun _ _ _ h => nomatch h

@[simp] theorem clear_nil : Clear [] := List.not_mem_nil

theorem kept_append : Kept (es ++ es') ↔ Kept es ∧ Kept es' := by
  simp only [Kept, List.mem_append, or_imp, forall_and]

theorem consuming_append : Consuming (es ++ es') ↔ Consuming es ∧ Consuming es' := by
  simp only [Consuming, List.mem_append, or_imp, forall_and]

theorem clear_append : Clear (es ++ es') ↔ Clear es ∧ Clear es' := by
  rw [Clear, List.mem_append, not_or]
  rfl

theorem kept_string {payload : Bytes} :
    Kept [.string payload] ↔ (asBytes (fromUtf8Lossy payload)).length = payload.length := by
  simp [Kept]

theorem consuming_string {payload : Bytes} : Consuming [.string payload] := by
  simp [Consuming]

theorem clear_string {payload : Bytes} : Clear [.string payload] := by
  simp [Clear]

theorem kept_inCow (v : Value) : Kept v.inCow := by
  unfold Value.inCow
  split <;> simp [Kept]

theorem consuming_inCow (v : Value) : Consuming v.inCow := by
  unfold Value.inCow
  split <;> simp [Consuming]

theorem clear_inCow {v : Value} : Clear v.inCow ↔ v.isDelegated = false := by
  unfold Value.inCow
  split <;> simp_all [Clear]

theorem kept_call {t : Ty} {ns : t.Names} {bytes : Bytes} :
    Kept (.call t ns bytes :: es) ↔ Kept es := by
  simp [Kept]

theorem clear_call {t : Ty} {ns : t.Names} {bytes : Bytes} :
    Clear (.call t ns bytes :: es) ↔ Clear es := by
  simp [Clear]

theorem consuming_call {t : Ty} {ns : t.Names} {bytes : Bytes} :
    Consuming (.call t ns bytes :: es) ↔ t.RunConsumes ns bytes ∧ Consuming es := by
  constructor
  · exact fun h => ⟨h t ns bytes List.mem_cons_self,
      fun s ns rest hmem => h s ns rest (List.mem_cons_of_mem _ hmem)⟩
  · rintro ⟨h, hes⟩ s ns' rest hmem
    rcases List.mem_cons.mp hmem with heq | hmem
    · cases heq
      exact h
    · exact hes s ns' rest hmem

end

/-! ## One part of a decoder -/

/-- A part that got from `bytePtr` to `r`, and should get to `target`: it does just when the strings
are kept and the calls in it consume their lengths, and it is in bounds then. -/
structure Traced (events : List Event) (len bytePtr r target : Nat) : Prop where
  start : bytePtr ≤ r
  bound : r ≤ target
  kept_iff : Kept events ↔ Consuming events ∧ r = target
  le_length : Consuming events → bytePtr ≤ len → r ≤ len

namespace Traced

variable {es es' : List Event} {len bytePtr r target : Nat}

theorem nil : Traced [] len bytePtr bytePtr bytePtr :=
  ⟨Nat.le_refl _, Nat.le_refl _, by simp, fun _ h => h⟩

theorem inCow (v : Value) (h : Traced es len bytePtr r target) :
    Traced (v.inCow ++ es) len bytePtr r target where
  start := h.start
  bound := h.bound
  kept_iff := by
    rw [kept_append, consuming_append, and_iff_right (kept_inCow v),
      and_iff_right (consuming_inCow v)]
    exact h.kept_iff
  le_length hc := h.le_length (consuming_append.mp hc).2

theorem append {p u u' : Nat} (h : Traced es len bytePtr p (bytePtr + u))
    (h' : Traced es' len p r (p + u')) : Traced (es ++ es') len bytePtr r (bytePtr + (u + u')) where
  start := Nat.le_trans h.start h'.start
  bound := by
    have := h.bound
    have := h'.bound
    omega
  kept_iff := by
    have hp := h.bound
    have hr := h'.bound
    rw [kept_append, consuming_append, h.kept_iff, h'.kept_iff]
    constructor
    · rintro ⟨⟨hc, he⟩, hc', he'⟩
      exact ⟨⟨hc, hc'⟩, by omega⟩
    · rintro ⟨⟨hc, hc'⟩, he⟩
      exact ⟨⟨hc, by omega⟩, hc', by omega⟩
  le_length hc hb := by
    obtain ⟨hc, hc'⟩ := consuming_append.mp hc
    exact h'.le_length hc' (h.le_length hc hb)

/-- A fixed part in bounds before it. -/
theorem fixed {fixedBytes u : Nat} (hin : InBounds len bytePtr fixedBytes)
    (h : Traced es len (bytePtr + fixedBytes) r (bytePtr + fixedBytes + u)) :
    Traced es len bytePtr r (bytePtr + (fixedBytes + u)) := by
  rw [Nat.add_assoc] at h
  refine ⟨by have := h.start; omega, h.bound, h.kept_iff, fun hc hb => h.le_length hc ?_⟩
  unfold InBounds at hin
  omega

end Traced

/-! ## Calls -/

theorem after_ok {α : Type} {r : Res α} {a : α} (h : r = .ok a) (events : α → List Event) :
    after r events = events a := by
  rw [h]
  rfl

/-- A call that got to `n` with the value `x`: it looked at nothing beyond, and if the value is
measured, every string is kept just when every call in it consumes its length. -/
structure Ty.ExactAt (t : Ty) (ns : t.Names) (bytes : Bytes) (x : t.Val) (n : Nat) : Prop where
  bound : n ≤ t.byteLen x
  take : ∀ m, n ≤ m → t.runReadNamed ns (bytes.take m) = .ok (x, n)
  kept_iff : t.Measured x → (Kept (t.trace ns bytes) ↔ Consuming (t.trace ns bytes))

def Ty.Exact (t : Ty) (ns : t.Names) : Prop :=
  ∀ (bytes : Bytes) (x : t.Val) (n : Nat), t.runReadNamed ns bytes = .ok (x, n) →
    t.ExactAt ns bytes x n

/-- A decoder that returns a value consumes its length just when the length is found, and the
decoder gets there in bounds. -/
theorem Ty.runConsumes_iff {t : Ty} {ns : t.Names} {bytes : Bytes} {x : t.Val} {n : Nat}
    (hread : t.runReadNamed ns bytes = .ok (x, n))
    (htake : ∀ m, n ≤ m → t.runReadNamed ns (bytes.take m) = .ok (x, n)) :
    t.RunConsumes ns bytes ↔ t.Measured x ∧ n ≤ bytes.length ∧ n = t.byteLen x := by
  constructor
  · intro h
    obtain ⟨hlen, hle, -⟩ := h x n hread
    obtain ⟨hmeasured, hn⟩ := (t.runByteLen_returnsIff x).of_eq_ok hlen
    exact ⟨hmeasured, hle, hn⟩
  · rintro ⟨hmeasured, hle, hn⟩ y m hread'
    obtain ⟨rfl, rfl⟩ := Prod.mk.inj (Outcome.ok.inj (hread.symm.trans hread'))
    refine ⟨?_, hle, value_ok (htake n (Nat.le_refl n))⟩
    rw [Ty.runByteLen_of_measured hmeasured, hn]

theorem Ty.kept_iff_of_traced {t : Ty} {ns : t.Names} {bytes : Bytes} {x : t.Val} {n : Nat}
    (hread : t.runReadNamed ns bytes = .ok (x, n))
    (htake : ∀ m, n ≤ m → t.runReadNamed ns (bytes.take m) = .ok (x, n)) {es : List Event}
    {start : Nat} (hstart : start ≤ bytes.length)
    (htraced : Traced es bytes.length start n (t.byteLen x)) (hmeasured : t.Measured x) :
    Kept (.call t ns bytes :: es) ↔ Consuming (.call t ns bytes :: es) := by
  rw [kept_call, consuming_call, htraced.kept_iff, Ty.runConsumes_iff hread htake]
  constructor
  · rintro ⟨hc, hn⟩
    exact ⟨⟨hmeasured, htraced.le_length hc hstart, hn⟩, hc⟩
  · rintro ⟨⟨-, -, hn⟩, hc⟩
    exact ⟨hc, hn⟩

theorem Ty.call_mem_trace (t : Ty) (ns : t.Names) (bytes : Bytes) :
    .call t ns bytes ∈ t.trace ns bytes := by
  cases t <;> exact List.mem_cons_self

/-- A call whose value is stepped over by its length. -/
theorem Ty.Exact.step {t : Ty} {ns : t.Names} (h : t.Exact ns) {bytes rest : Bytes}
    {bytePtr len : Nat} {x : t.Val} (hrest : suffixFrom bytes bytePtr = .ok rest)
    (hx : value (t.runReadNamed ns rest) = .ok x) (hlen : t.runByteLen x = .ok len) :
    len = t.byteLen x ∧
    Traced (t.trace ns rest) bytes.length bytePtr (bytePtr + len) (bytePtr + t.byteLen x) ∧
    ∀ m, bytePtr + len ≤ m → suffixFrom (bytes.take m) bytePtr = .ok (rest.take (m - bytePtr)) ∧
      value (t.runReadNamed ns (rest.take (m - bytePtr))) = .ok x := by
  obtain ⟨⟨y, n⟩, hread, hy⟩ := Outcome.bind_eq_ok.mp hx
  obtain rfl : y = x := Outcome.ok.inj hy
  obtain ⟨hmeasured, rfl⟩ := (t.runByteLen_returnsIff y).of_eq_ok hlen
  obtain ⟨hbound, htake, hkept⟩ := h rest y n hread
  refine ⟨rfl, ⟨Nat.le_add_right _ _, Nat.le_refl _, by simpa using hkept hmeasured, ?_⟩, ?_⟩
  · intro hc hb
    obtain ⟨-, rfl⟩ := suffixFrom_eq_ok.mp hrest
    have hle := (Ty.runConsumes_iff hread htake).mp (hc t ns _ (t.call_mem_trace ns _))
    rw [List.length_drop] at hle
    omega
  · intro m hm
    exact ⟨suffixFrom_take (by omega) hrest, value_ok (htake _ (by omega))⟩

theorem Ty.Exact.items {t : Ty} {ns : t.Names} (h : t.Exact ns) {bytes : Bytes} {n bytePtr r : Nat}
    {xs : { xs : List t.Val // xs.length = n }}
    (hread : runReadItems (fun bytes => value (t.runReadNamed ns bytes)) t.runByteLen bytes n
      bytePtr = .ok (xs, r)) :
    Traced (traceItems (fun bytes => value (t.runReadNamed ns bytes)) t.runByteLen (t.trace ns)
      bytes n bytePtr) bytes.length bytePtr r (bytePtr + (xs.val.map t.byteLen).sum) ∧
    ∀ m, r ≤ m → runReadItems (fun bytes => value (t.runReadNamed ns bytes)) t.runByteLen
      (bytes.take m) n bytePtr = .ok (xs, r) := by
  induction n generalizing bytePtr with
  | zero =>
    cases hread
    exact ⟨.nil, fun _ _ => rfl⟩
  | succ n ih =>
    obtain ⟨rest, hrest, hread⟩ := Outcome.bind_eq_ok.mp hread
    obtain ⟨x, hx, hread⟩ := Outcome.bind_eq_ok.mp hread
    obtain ⟨len, hlen, hread⟩ := Outcome.bind_eq_ok.mp hread
    obtain ⟨⟨ys, r'⟩, hys, hr⟩ := Outcome.bind_eq_ok.mp hread
    cases hr
    obtain ⟨-, htraced, htake⟩ := h.step hrest hx hlen
    obtain ⟨htraced', htake'⟩ := ih hys
    rw [traceItems, after_ok hrest, after_ok hx, after_ok hlen, List.map_cons, List.sum_cons]
    refine ⟨htraced.append htraced', fun m hm => ?_⟩
    obtain ⟨hsuffix, hvalue⟩ := htake m (Nat.le_trans htraced'.start hm)
    exact Outcome.bind_eq_ok.mpr ⟨_, hsuffix, Outcome.bind_eq_ok.mpr ⟨x, hvalue,
      Outcome.bind_eq_ok.mpr ⟨len, hlen, Outcome.bind_eq_ok.mpr ⟨_, htake' m hm, rfl⟩⟩⟩⟩

/-! ## Values and fields -/

/-- The events in the code for the inside of a `Cow` or an `Option`. -/
def Value.traceInner (v : Value) (ns : v.Names) (o : ByteOffset) (bytes : Bytes) (bytePtr : Nat) :
    List Event :=
  after (v.readFixedPart o bytes bytePtr) fun (f, bytePtr) => v.trace ns o f bytes bytePtr

/-- The variable part of a field, at a fixed offset and in an `Option`. -/
structure Value.Exact (v : Value) (ns : v.Names) (bytes : Bytes) : Prop where
  static : ∀ offset f bytePtr y r,
    v.readWith ns (.static offset) f bytes bytePtr = .ok (y, r) →
    Traced (v.trace ns (.static offset) f bytes bytePtr) bytes.length bytePtr r
      (bytePtr + v.unknownLength y) ∧
    (v.isCow = true → InBounds bytes.length offset v.fixedBytes) ∧
    ∀ m, r ≤ m → offset + v.fixedBytes ≤ m →
      v.readWith ns (.static offset) f (bytes.take m) bytePtr = .ok (y, r)
  dynamic : ∀ bytePtr y r, v.readInnerWith ns .dynamic bytes bytePtr = .ok (y, r) →
    Traced (v.traceInner ns .dynamic bytes bytePtr) bytes.length bytePtr r
      (bytePtr + (v.fixedBytes + v.unknownLength y)) ∧
    ∀ m, r ≤ m → v.readInnerWith ns .dynamic (bytes.take m) bytePtr = .ok (y, r)

/-- A field that is no `Cow` has its variable part at `byte_ptr`. -/
theorem Value.Exact.of_bytePtr {v : Value} {ns : v.Names} {bytes : Bytes} (hcow : v.isCow = false)
    (h : ∀ o f bytePtr y r, v.readWith ns o f bytes bytePtr = .ok (y, r) →
      Traced (v.trace ns o f bytes bytePtr) bytes.length bytePtr r (bytePtr + v.unknownLength y) ∧
      ∀ m, r ≤ m → v.readWith ns o f (bytes.take m) bytePtr = .ok (y, r)) :
    v.Exact ns bytes where
  static offset f bytePtr y r hread :=
    have ⟨htraced, htake⟩ := h (.static offset) f bytePtr y r hread
    ⟨htraced, fun h => absurd h (by simp [hcow]), fun m hm _ => htake m hm⟩
  dynamic bytePtr y r hread := by
    obtain ⟨⟨f, p⟩, hfixed, hread⟩ := Outcome.bind_eq_ok.mp hread
    obtain ⟨rfl, hin⟩ := v.readFixedPart_ok hcow f hfixed
    obtain ⟨htraced, htake⟩ := h .dynamic f _ y r hread
    rw [traceInner, after_ok hfixed]
    refine ⟨.fixed hin htraced, fun m hm => ?_⟩
    have hget : ByteOffset.dynamic.get bytePtr + v.fixedBytes ≤ m :=
      Nat.le_trans htraced.start hm
    rw [readInnerWith, v.readFixedPart_take hget, hfixed]
    exact htake m hm

/-- The fixed part of a field was in bounds, that of a `Cow` when its variable part was read. -/
theorem Value.Exact.inBounds {v : Value} {ns : v.Names} {bytes : Bytes} (h : v.Exact ns bytes)
    {offset p p' bytePtr r : Nat} {f g : v.Fixed} {y : v.Val}
    (hfixed : v.readFixedPart (.static offset) bytes p = .ok (f, p'))
    (hread : v.readWith ns (.static offset) g bytes bytePtr = .ok (y, r)) :
    InBounds bytes.length offset v.fixedBytes :=
  (Bool.eq_false_or_eq_true v.isCow).elim (h.static offset g bytePtr y r hread).2.1
    fun hcow => (v.readFixedPart_ok (o := .static offset) hcow f hfixed).2

/-- Reading the inside of a `Cow` at the fixed offset. -/
theorem Value.Exact.inner {v : Value} {ns : v.Names} {bytes : Bytes} (h : v.Exact ns bytes)
    {offset bytePtr r : Nat} {y : v.Val}
    (hread : v.readInnerWith ns (.static offset) bytes bytePtr = .ok (y, r)) :
    Traced (v.traceInner ns (.static offset) bytes bytePtr) bytes.length bytePtr r
      (bytePtr + v.unknownLength y) ∧
    InBounds bytes.length offset v.fixedBytes ∧
    ∀ m, r ≤ m → offset + v.fixedBytes ≤ m →
      v.readInnerWith ns (.static offset) (bytes.take m) bytePtr = .ok (y, r) := by
  obtain ⟨⟨f, p⟩, hfixed, hvariable⟩ := Outcome.bind_eq_ok.mp hread
  obtain rfl : p = bytePtr := v.readFixedPart_static hfixed
  obtain ⟨htraced, -, htake⟩ := h.static offset f p y r hvariable
  have hin := h.inBounds hfixed hvariable
  rw [traceInner, after_ok hfixed]
  refine ⟨htraced, hin, fun m hm hoff => ?_⟩
  rw [readInnerWith, v.readFixedPart_take (o := .static offset) hoff, hfixed]
  exact htake m hm hoff

theorem Value.Exact.cow {v : Value} {ns : v.Names} {bytes : Bytes} (h : v.Exact ns bytes) :
    Value.Exact (.cow v) ns bytes where
  static offset f bytePtr y r hread := by
    rw [readWith_cow] at hread
    obtain ⟨⟨y', r'⟩, hinner, hy⟩ := Outcome.bind_eq_ok.mp hread
    cases hy
    obtain ⟨htraced, hin, htake⟩ := h.inner hinner
    refine ⟨htraced.inCow v, fun _ => hin, fun m hm hoff => ?_⟩
    rw [readWith_cow, htake m hm hoff]
    rfl
  dynamic bytePtr y r hread := by
    rw [readInnerWith_cow] at hread
    obtain ⟨⟨y', r'⟩, hinner, hy⟩ := Outcome.bind_eq_ok.mp hread
    cases hy
    obtain ⟨htraced, htake⟩ := h.dynamic bytePtr y' _ hinner
    refine ⟨htraced.inCow v, fun m hm => ?_⟩
    rw [readInnerWith_cow, htake m hm]
    rfl

theorem Value.Exact.option {v : Value} {ns : v.Names} {bytes : Bytes} (h : v.Exact ns bytes) :
    Value.Exact (.option v) ns bytes :=
  .of_bytePtr rfl fun o isSome bytePtr y r hread => by
    cases isSome with
    | false =>
      cases hread
      exact ⟨.nil, fun _ _ => rfl⟩
    | true =>
      rw [readWith_some] at hread
      obtain ⟨⟨y', r'⟩, hinner, hy⟩ := Outcome.bind_eq_ok.mp hread
      cases hy
      obtain ⟨htraced, htake⟩ := h.dynamic bytePtr y' _ hinner
      refine ⟨htraced, fun m hm => ?_⟩
      rw [readWith_some, htake m hm]
      rfl

theorem Value.Exact.string {bytes : Bytes} : Value.Exact .string () bytes :=
  .of_bytePtr rfl fun o len bytePtr y r hread => by
    have hstring : readString len bytes bytePtr = .ok (y, r) := hread
    obtain ⟨payload, hslice, hy⟩ := Outcome.bind_eq_ok.mp hstring
    cases hy
    obtain ⟨-, hle, hlen⟩ := sliceOf_ok hslice
    have hlossy := le_length_fromUtf8Lossy payload
    rw [trace, after_ok hslice]
    refine ⟨⟨Nat.le_add_right _ _, ?_, ?_, fun _ _ => hle⟩, fun m hm => ?_⟩
    · show bytePtr + len ≤ bytePtr + (asBytes (fromUtf8Lossy payload)).length
      omega
    · rw [kept_string, and_iff_right consuming_string]
      show _ ↔ bytePtr + len = bytePtr + (asBytes (fromUtf8Lossy payload)).length
      omega
    · show readString len (bytes.take m) bytePtr = _
      rw [readString, sliceOf_take hm, hslice]
      rfl

/-- The variable part with its names looks at nothing beyond where it got, either. -/
theorem Value.Exact.runLetVariable_take {v : Value} {ns : v.Names} {bytes : Bytes}
    (h : v.Exact ns bytes) {ident : String} {offset bytePtr r m : Nat} {s s' : Scope}
    (hrun : v.runLetVariable ns ident (.static offset) s bytes bytePtr = .ok (s', r)) (hm : r ≤ m)
    (hoff : offset + v.fixedBytes ≤ m) :
    v.runLetVariable ns ident (.static offset) s (bytes.take m) bytePtr = .ok (s', r) := by
  cases hfixed : v.isFixed with
  | true =>
    rw [runLetVariable_fixed hfixed] at hrun ⊢
    exact hrun
  | false =>
    rw [v.runLets ns hfixed] at hrun ⊢
    obtain ⟨f, hf, hrun⟩ := Outcome.bind_eq_ok.mp hrun
    obtain ⟨⟨y, p⟩, hread, heq⟩ := Outcome.bind_eq_ok.mp hrun
    cases heq
    obtain ⟨-, -, htake⟩ := h.static offset f bytePtr y _ hread
    exact Outcome.bind_eq_ok.mpr ⟨f, hf, Outcome.bind_eq_ok.mpr ⟨_, htake m hm hoff, rfl⟩⟩

/-- Fields in a row; `byte_ptr` starts after their fixed parts. -/
structure Fields.Exact (fs : Fields) (ns : fs.Names) (bytes : Bytes) : Prop where
  traced : ∀ offset f bytePtr y r, fs.readWith ns offset f bytes bytePtr = .ok (y, r) →
    Traced (fs.trace ns offset f bytes bytePtr) bytes.length bytePtr r
      (bytePtr + fs.unknownLength y) ∧
    fs.FixedInBounds bytes.length (fun v => v.isCow = true) offset
  take : ∀ (_ : fs.Fixed) {names k offset s bytePtr s' r},
    fs.runLetVariable ns names k offset s bytes bytePtr = .ok (s', r) → ∀ m, r ≤ m →
    offset + fs.fixedBytes ≤ m →
    fs.runLetVariable ns names k offset s (bytes.take m) bytePtr = .ok (s', r)

theorem Fields.Exact.nil {bytes : Bytes} : Fields.Exact .nil () bytes where
  traced _ _ _ _ _ hread := by
    cases hread
    exact ⟨.nil, trivial⟩
  take _ _ _ _ _ _ _ _ hrun _ _ _ := by
    cases hrun
    rfl

theorem Fields.Exact.cons {v : Value} {fs : Fields} {n : v.Names} {ns : fs.Names} {bytes : Bytes}
    (hv : v.Exact n bytes) (hfs : fs.Exact ns bytes) :
    Fields.Exact (.cons v fs) (n, ns) bytes where
  traced := by
    intro offset ⟨f, fixed⟩ bytePtr y r hread
    obtain ⟨⟨x, p⟩, hx, hread⟩ := Outcome.bind_eq_ok.mp hread
    obtain ⟨⟨xs, p'⟩, hxs, hy⟩ := Outcome.bind_eq_ok.mp hread
    cases hy
    obtain ⟨htraced, hin, -⟩ := hv.static offset f bytePtr x p hx
    obtain ⟨htraced', hin'⟩ := hfs.traced _ fixed p xs r hxs
    rw [trace, after_ok hx]
    exact ⟨htraced.append htraced', hin, hin'⟩
  take := by
    intro ⟨f, fixed⟩ names k offset s bytePtr s' r hrun m hm hoff
    obtain ⟨⟨s₁, p⟩, hrunv, hrun⟩ := Outcome.bind_eq_ok.mp hrun
    obtain ⟨g, xs, -, hread, -⟩ := fs.runLetVariable_ok ns fixed hrun
    have hp := (hfs.traced _ g p xs r hread).1.start
    rw [fixedBytes] at hoff
    exact Outcome.bind_eq_ok.mpr ⟨_, hv.runLetVariable_take hrunv (by omega) (by omega),
      hfs.take fixed hrun m hm (by omega)⟩

/-- The events in both parts of the fields. -/
def Fields.traceBoth (fs : Fields) (ns : fs.Names) (names : Nat → String) (offset : Nat)
    (bytes : Bytes) : List Event :=
  after (fs.readFixedPart offset bytes) fun f =>
    after (fs.headers ns names 0 offset f (fs.letFixed names 0 f []) bytes
      (offset + fs.fixedBytes)) fun f =>
      fs.trace ns offset f bytes (offset + fs.fixedBytes)

theorem Fields.Exact.both {fs : Fields} {ns : fs.Names} {bytes : Bytes} (h : fs.Exact ns bytes)
    {names : Nat → String} (hd : fs.Distinct names) {offset r : Nat} {x : fs.Val}
    (hread : fs.runReadBoth ns names offset bytes = .ok (x, r)) :
    Traced (fs.traceBoth ns names offset bytes) bytes.length offset r
      (offset + (fs.fixedBytes + fs.unknownLength x)) ∧
    InBounds bytes.length offset fs.fixedBytes ∧ offset + fs.fixedBytes ≤ r ∧
    ∀ m, r ≤ m → fs.runReadBoth ns names offset (bytes.take m) = .ok (x, r) := by
  obtain ⟨f, g, ys, hfixed, hheaders, hvariable, hsame⟩ := Fields.runReadBoth_ok hd hread
  obtain ⟨htraced, hcow⟩ := h.traced offset g _ ys r hvariable
  have hin := Fields.FixedInBounds.all (fun v => Bool.eq_false_or_eq_true v.isCow) fs hcow
    (fs.readFixedPart_ok f hfixed)
  rw [traceBoth, after_ok hfixed, after_ok hheaders, hsame.unknownLength_eq]
  refine ⟨.fixed hin htraced, hin, htraced.start, fun m hm => ?_⟩
  obtain ⟨f', hf', hread⟩ := Outcome.bind_eq_ok.mp hread
  obtain rfl : f' = f := Outcome.ok.inj (hf'.symm.trans hfixed)
  obtain ⟨⟨s, p⟩, hrun, hread⟩ := Outcome.bind_eq_ok.mp hread
  obtain ⟨y, hbind, heq⟩ := Outcome.bind_eq_ok.mp hread
  cases heq
  have hstart := Nat.le_trans htraced.start hm
  rw [runReadBoth, fs.readFixedPart_take hstart, hfixed, Outcome.bind_ok,
    h.take f' hrun m hm hstart, Outcome.bind_ok]
  exact Outcome.bind_eq_ok.mpr ⟨x, hbind, rfl⟩

/-! ## Every type -/

theorem Ty.Exact.lone {v : Value} {ns : v.Names} (h : ∀ bytes, v.Exact ns bytes) :
    Ty.Exact (.lone v) ns := by
  intro bytes x n hread
  have hrun := hread
  rw [Ty.runReadNamed_lone] at hread
  obtain ⟨⟨f, p⟩, hfixed, hvariable⟩ := Outcome.bind_eq_ok.mp hread
  obtain ⟨htraced, -, htake⟩ := (h bytes).static 0 f _ x n hvariable
  have hin := (h bytes).inBounds hfixed hvariable
  have hboth : Traced (v.trace ns (.static 0) f bytes v.fixedBytes) bytes.length 0 n
      (0 + (v.fixedBytes + v.unknownLength x)) := by
    refine .fixed hin ?_
    rwa [Nat.zero_add]
  rw [Nat.zero_add] at hboth
  have hstable : ∀ m, n ≤ m → (Ty.lone v).runReadNamed ns (bytes.take m) = .ok (x, n) := by
    intro m hm
    have hoff : 0 + v.fixedBytes ≤ m := by
      have := htraced.start
      omega
    rw [Ty.runReadNamed_lone, v.readFixedPart_take (o := .static 0) hoff, hfixed]
    exact htake m hm hoff
  refine ⟨hboth.bound, hstable, ?_⟩
  rw [Ty.trace, after_ok hfixed]
  exact Ty.kept_iff_of_traced hrun hstable (Nat.zero_le _) hboth

/-- A variant of an enum, from the variant number on. -/
def Variants.Exact (vs : Variants) (ns : vs.Names) : Prop :=
  ∀ (bytes : Bytes) variantLen variantId x r,
    vs.runReadNamed ns variantLen variantId bytes = .ok (x, r) →
    Traced (vs.trace ns variantLen variantId bytes) bytes.length variantLen r
      (variantLen + vs.asLength x) ∧
    ∀ m, r ≤ m → vs.runReadNamed ns variantLen variantId (bytes.take m) = .ok (x, r)

theorem Ty.Exact.enum {vs : Variants} {ns : vs.Names} (h : vs.Exact ns)
    (haccepted : (Ty.enum vs).Accepted) : Ty.Exact (.enum vs) ns := by
  intro bytes x n hread
  have hlen : (Ty.enum vs).byteLen x = vs.variantLen + vs.asLength x := Nat.add_comm _ _
  have hrun := hread
  rw [Ty.runReadNamed] at hread
  by_cases hone : vs.length ≤ 1
  · rw [if_pos hone] at hread
    obtain ⟨htraced, htake⟩ := h bytes _ _ x n hread
    have hstable : ∀ m, n ≤ m → (Ty.enum vs).runReadNamed ns (bytes.take m) = .ok (x, n) := by
      intro m hm
      rw [Ty.runReadNamed, if_pos hone, htake m hm]
    refine ⟨hlen ▸ htraced.bound, hstable, ?_⟩
    rw [Ty.trace, if_pos hone]
    refine Ty.kept_iff_of_traced hrun hstable ?_ (hlen ▸ htraced)
    rw [Variants.variantLen_of_le_one hone]
    exact Nat.zero_le _
  · rw [if_neg hone] at hread
    obtain ⟨variantId, hid, hread⟩ := Outcome.bind_eq_ok.mp hread
    obtain ⟨htraced, htake⟩ := h bytes _ _ x n hread
    have hstart := htraced.start
    rw [Variants.variantLen_eq_one (by omega) haccepted.2.1] at hstart
    have hstable : ∀ m, n ≤ m → (Ty.enum vs).runReadNamed ns (bytes.take m) = .ok (x, n) := by
      intro m hm
      rw [Ty.runReadNamed, if_neg hone, readByte_take (by omega), hid, Outcome.bind_ok, htake m hm]
    refine ⟨hlen ▸ htraced.bound, hstable, ?_⟩
    rw [Ty.trace, if_neg hone, after_ok hid]
    refine Ty.kept_iff_of_traced hrun hstable ?_ (hlen ▸ htraced)
    rw [Variants.variantLen_eq_one (by omega) haccepted.2.1]
    exact readByte_ok hid

mutual

theorem Value.exact : (v : Value) → v.Accepted → (ns : v.Names) → v.Distinct ns →
    (bytes : Bytes) → v.Exact ns bytes
  | .emptyTuple, _, _, _, _ | .bool, _, _, _, _ | .number _, _, _, _, _ =>
    .of_bytePtr rfl fun _ _ _ _ _ hread => by
      cases hread
      exact ⟨.nil, fun _ _ => rfl⟩
  | .string, _, _, _, _ => .string
  | .cow v, h, ns, hns, bytes => .cow (v.exact h.2.2 ns hns bytes)
  | .option v, h, ns, hns, bytes => .option (v.exact h ns hns bytes)
  | .array t length, h, ns, hns, _ => .of_bytePtr rfl fun _ _ _ _ _ hread => by
    rcases hns with rfl | hns
    · cases hread
      exact ⟨.nil, fun _ _ => rfl⟩
    · exact (t.exact h ns hns).items hread
  | .vec t, h, ns, hns, _ => .of_bytePtr rfl fun _ _ _ _ _ hread => by
    obtain ⟨⟨xs, r⟩, hxs, hy⟩ := Outcome.bind_eq_ok.mp hread
    cases hy
    obtain ⟨htraced, htake⟩ := (t.exact h ns hns).items hxs
    refine ⟨htraced, fun m hm => ?_⟩
    rw [Value.readWith, htake m hm]
    rfl
  | .delegated t, h, ns, hns, _ => .of_bytePtr rfl fun _ _ _ _ _ hread => by
    obtain ⟨rest, hrest, hread⟩ := Outcome.bind_eq_ok.mp hread
    obtain ⟨x, hx, hread⟩ := Outcome.bind_eq_ok.mp hread
    obtain ⟨len, hlen, hy⟩ := Outcome.bind_eq_ok.mp hread
    cases hy
    obtain ⟨-, htraced, htake⟩ := (t.exact h ns hns).step hrest hx hlen
    rw [Value.trace, after_ok hrest]
    refine ⟨htraced, fun m hm => ?_⟩
    obtain ⟨hsuffix, hvalue⟩ := htake m hm
    exact Outcome.bind_eq_ok.mpr ⟨_, hsuffix, Outcome.bind_eq_ok.mpr ⟨_, hvalue,
      Outcome.bind_eq_ok.mpr ⟨len, hlen, rfl⟩⟩⟩

theorem Ty.exact : (t : Ty) → t.Accepted → (ns : t.Names) → t.Distinct ns → t.Exact ns
  | .lone v, h, ns, hns => .lone (v.exact h ns hns)
  | .struct fs, h, (names, ns), hns => fun bytes x n hread => by
    have hrun := hread
    rw [Ty.runReadNamed_struct] at hread
    obtain ⟨htraced, -, -, htake⟩ := (fs.exact h ns hns.2 bytes).both hns.1 hread
    rw [Fields.traceBoth, Nat.zero_add, Nat.zero_add] at htraced
    have hstable := fun m hm => (Ty.runReadNamed_struct fs names ns _).trans (htake m hm)
    exact ⟨htraced.bound, hstable, Ty.kept_iff_of_traced hrun hstable (Nat.zero_le _) htraced⟩
  | .enum vs, h, ns, hns => .enum (vs.exact h.2.2 ns hns) h

theorem Fields.exact : (fs : Fields) → fs.Accepted → (ns : fs.Names) → fs.DistinctInside ns →
    (bytes : Bytes) → fs.Exact ns bytes
  | .nil, _, _, _, _ => .nil
  | .cons v fs, h, (n, ns), hns, bytes =>
    .cons (v.exact h.1 n hns.1 bytes) (fs.exact h.2 ns hns.2 bytes)

theorem Variants.exact : (vs : Variants) → vs.Accepted → (ns : vs.Names) → vs.Distinct ns →
    vs.Exact ns
  | .nil, _, _, _ => fun _ _ _ x => x.elim
  | .cons fs vs, h, ((names, n), ns), hns => by
    intro bytes variantLen variantId x r hread
    cases variantId with
    | zero =>
      rw [Variants.runReadNamed_zero] at hread
      obtain ⟨⟨y, p⟩, hboth, hy⟩ := Outcome.bind_eq_ok.mp hread
      cases hy
      obtain ⟨htraced, -, -, htake⟩ := (fs.exact h.1 n hns.1.2 bytes).both hns.1.1 hboth
      refine ⟨htraced, fun m hm => ?_⟩
      rw [Variants.runReadNamed_zero, htake m hm]
      rfl
    | succ variantId =>
      obtain ⟨⟨y, p⟩, hvs, hy⟩ := Outcome.bind_eq_ok.mp hread
      cases hy
      obtain ⟨htraced, htake⟩ := vs.exact h.2 ns hns.2 bytes variantLen variantId y _ hvs
      refine ⟨htraced, fun m hm => ?_⟩
      rw [Variants.runReadNamed, htake m hm]
      rfl

end

/-! ## What is made is measured -/

theorem clear_traceItems {t : Ty} {ns : t.Names} {bytes : Bytes} (h : ∀ bytes (x : t.Val) n,
    t.runReadNamed ns bytes = .ok (x, n) → (Clear (t.trace ns bytes) ↔ t.Measured x))
    {n bytePtr r : Nat} {xs : { xs : List t.Val // xs.length = n }}
    (hread : runReadItems (fun bytes => value (t.runReadNamed ns bytes)) t.runByteLen bytes n
      bytePtr = .ok (xs, r)) :
    Clear (traceItems (fun bytes => value (t.runReadNamed ns bytes)) t.runByteLen (t.trace ns)
      bytes n bytePtr) ↔ ∀ x ∈ xs.val, t.Measured x := by
  induction n generalizing bytePtr with
  | zero =>
    cases hread
    simp [traceItems, Clear]
  | succ n ih =>
    obtain ⟨rest, hrest, hread⟩ := Outcome.bind_eq_ok.mp hread
    obtain ⟨x, hx, hread⟩ := Outcome.bind_eq_ok.mp hread
    obtain ⟨len, hlen, hread⟩ := Outcome.bind_eq_ok.mp hread
    obtain ⟨⟨ys, r'⟩, hys, hr⟩ := Outcome.bind_eq_ok.mp hread
    cases hr
    obtain ⟨⟨y, k⟩, hy, heq⟩ := Outcome.bind_eq_ok.mp hx
    obtain rfl : y = x := Outcome.ok.inj heq
    rw [traceItems, after_ok hrest, after_ok hx, after_ok hlen, clear_append, h rest y k hy,
      ih hys]
    exact List.forall_mem_cons.symm

/-- Fields whose variable parts are measured just when no `Cow` of a type with an impl of its own is
made in them. -/
def Fields.ClearIff (fs : Fields) (ns : fs.Names) : Prop := ∀ offset f bytes bytePtr y r,
  fs.readWith ns offset f bytes bytePtr = .ok (y, r) →
    (Clear (fs.trace ns offset f bytes bytePtr) ↔ fs.Measured y)

theorem Fields.ClearIff.both {fs : Fields} {ns : fs.Names} (h : fs.ClearIff ns)
    {names : Nat → String} (hd : fs.Distinct names) {offset r : Nat} {bytes : Bytes} {x : fs.Val}
    (hread : fs.runReadBoth ns names offset bytes = .ok (x, r)) :
    Clear (fs.traceBoth ns names offset bytes) ↔ fs.Measured x := by
  obtain ⟨f, g, ys, hfixed, hheaders, hvariable, hsame⟩ := Fields.runReadBoth_ok hd hread
  rw [traceBoth, after_ok hfixed, after_ok hheaders, hsame.measured_iff]
  exact h offset g bytes _ ys r hvariable

mutual

theorem Value.clear_iff : (v : Value) → (ns : v.Names) → v.Distinct ns → ∀ o f bytes bytePtr y r,
    v.readWith ns o f bytes bytePtr = .ok (y, r) →
    (Clear (v.trace ns o f bytes bytePtr) ↔ v.Measured y)
  | .emptyTuple, _, _, _, _, _, _, _, _, _ | .bool, _, _, _, _, _, _, _, _, _
  | .number _, _, _, _, _, _, _, _, _, _ => iff_of_true clear_nil trivial
  | .string, _, _, _, _, _, _, _, _, hread => by
    obtain ⟨payload, hslice, -⟩ := Outcome.bind_eq_ok.mp hread
    rw [Value.trace, after_ok hslice]
    exact iff_of_true clear_string trivial
  | .cow v, ns, hns, o, _, bytes, bytePtr, _, _, hread => by
    obtain ⟨f, hfixed, hread⟩ := Outcome.bind_eq_ok.mp hread
    obtain ⟨y, hy, heq⟩ := Outcome.bind_eq_ok.mp hread
    cases heq
    rw [Value.trace, after_ok hfixed, clear_append, clear_inCow]
    exact and_congr_right fun _ => v.clear_iff ns hns o f.1 bytes f.2 y.1 y.2 hy
  | .option v, ns, hns, _, true, bytes, _, _, _, hread => by
    obtain ⟨f, hfixed, hread⟩ := Outcome.bind_eq_ok.mp hread
    obtain ⟨y, hy, heq⟩ := Outcome.bind_eq_ok.mp hread
    cases heq
    rw [Value.trace, after_ok hfixed]
    exact v.clear_iff ns hns .dynamic f.1 bytes f.2 y.1 y.2 hy
  | .option _, _, _, _, false, _, _, _, _, hread => by
    cases hread
    exact iff_of_true clear_nil trivial
  | .array t _, ns, hns, _, _, _, _, _, _, hread => by
    rcases hns with rfl | hns
    · cases hread
      exact iff_of_true clear_nil fun _ hx => nomatch hx
    · exact clear_traceItems (t.clear_iff ns hns) hread
  | .vec t, ns, hns, _, _, _, _, _, _, hread => by
    obtain ⟨xs, hxs, heq⟩ := Outcome.bind_eq_ok.mp hread
    cases heq
    exact clear_traceItems (t.clear_iff ns hns) hxs
  | .delegated t, ns, hns, _, _, _, _, _, _, hread => by
    obtain ⟨rest, hrest, hread⟩ := Outcome.bind_eq_ok.mp hread
    obtain ⟨x, hx, hread⟩ := Outcome.bind_eq_ok.mp hread
    obtain ⟨len, -, hread⟩ := Outcome.bind_eq_ok.mp hread
    obtain ⟨y, hy, hvalue⟩ := Outcome.bind_eq_ok.mp hx
    cases hvalue
    cases hread
    rw [Value.trace, after_ok hrest]
    exact t.clear_iff ns hns rest y.1 y.2 hy

/-- A decoder makes a value that is measured just when it makes no `Cow` of a type with an impl of
its own. -/
theorem Ty.clear_iff : (t : Ty) → (ns : t.Names) → t.Distinct ns → ∀ bytes x n,
    t.runReadNamed ns bytes = .ok (x, n) → (Clear (t.trace ns bytes) ↔ t.Measured x)
  | .lone v, ns, hns, bytes, x, n, hread => by
    rw [Ty.runReadNamed_lone] at hread
    obtain ⟨f, hfixed, hread⟩ := Outcome.bind_eq_ok.mp hread
    rw [Ty.trace, clear_call, after_ok hfixed]
    exact v.clear_iff ns hns _ _ bytes _ x n hread
  | .struct fs, (names, ns), hns, bytes, x, n, hread => by
    rw [Ty.runReadNamed_struct] at hread
    have hclear := (fs.clearIff ns hns.2).both hns.1 hread
    rwa [Fields.traceBoth, Nat.zero_add, ← clear_call] at hclear
  | .enum vs, ns, hns, bytes, x, n, hread => by
    rw [Ty.runReadNamed] at hread
    rw [Ty.trace, clear_call]
    by_cases hone : vs.length ≤ 1
    · rw [if_pos hone] at hread ⊢
      exact vs.clear_iff ns hns _ _ bytes x n hread
    · rw [if_neg hone] at hread ⊢
      obtain ⟨variantId, hid, hread⟩ := Outcome.bind_eq_ok.mp hread
      rw [after_ok hid]
      exact vs.clear_iff ns hns _ _ bytes x n hread

theorem Fields.clearIff : (fs : Fields) → (ns : fs.Names) → fs.DistinctInside ns → fs.ClearIff ns
  | .nil, _, _ => fun _ _ _ _ _ _ _ => iff_of_true clear_nil trivial
  | .cons v fs, (n, ns), hns => fun offset (f, rest) bytes bytePtr y r hread => by
    obtain ⟨x, hx, hread⟩ := Outcome.bind_eq_ok.mp hread
    obtain ⟨xs, hxs, heq⟩ := Outcome.bind_eq_ok.mp hread
    cases heq
    rw [Fields.trace, after_ok hx, clear_append]
    exact and_congr (v.clear_iff n hns.1 _ f bytes bytePtr x.1 x.2 hx)
      (fs.clearIff ns hns.2 _ rest bytes x.2 xs.1 xs.2 hxs)

theorem Variants.clear_iff : (vs : Variants) → (ns : vs.Names) → vs.Distinct ns →
    ∀ variantLen variantId bytes x n, vs.runReadNamed ns variantLen variantId bytes = .ok (x, n) →
    (Clear (vs.trace ns variantLen variantId bytes) ↔ vs.Measured x)
  | .nil, _, _, _, _, _, x, _, _ => x.elim
  | .cons fs vs, ((names, n), _), hns, variantLen, 0, bytes, _, _, hread => by
    rw [Variants.runReadNamed_zero] at hread
    obtain ⟨y, hy, heq⟩ := Outcome.bind_eq_ok.mp hread
    cases heq
    exact (fs.clearIff n hns.1.2).both hns.1.1 hy
  | .cons _ vs, (_, ns), hns, variantLen, variantId + 1, bytes, _, _, hread => by
    obtain ⟨y, hy, heq⟩ := Outcome.bind_eq_ok.mp hread
    cases heq
    exact vs.clear_iff ns hns.2 variantLen variantId bytes y.1 y.2 hy

end

/-! ## When `byte_len` is consumed -/

/-- In the run of a decoder that returns a value, it and the decoders it calls consume what
`byte_len` returns just when no `Cow` of a type with an impl of its own is made, and every string is
as long as the bytes it was made of. -/
theorem Ty.consumes_iff (t : Ty) (haccepted : t.Accepted) (ns : t.Names) (hns : t.Distinct ns)
    (bytes : Bytes) (x : t.Val) (hread : t.fromBytesNamed ns bytes = .ok x) :
    (∀ s names rest, .call s names rest ∈ t.trace ns bytes → s.RunConsumes names rest) ↔
      .cow ∉ t.trace ns bytes ∧ ∀ payload, .string payload ∈ t.trace ns bytes →
        (asBytes (fromUtf8Lossy payload)).length = payload.length := by
  obtain ⟨⟨y, n⟩, hrun, hy⟩ := Outcome.bind_eq_ok.mp hread
  obtain rfl : y = x := Outcome.ok.inj hy
  obtain ⟨-, htake, hkept⟩ := t.exact haccepted ns hns bytes y n hrun
  have hclear := t.clear_iff ns hns bytes y n hrun
  constructor
  · intro h
    have hconsumes := h t ns bytes (t.call_mem_trace ns bytes)
    have hmeasured := ((Ty.runConsumes_iff hrun htake).mp hconsumes).1
    exact ⟨hclear.mpr hmeasured, (hkept hmeasured).mpr h⟩
  · rintro ⟨hno, h⟩
    exact (hkept (hclear.mp hno)).mp h

/-- `struct { list: Vec<String>, list_fixed: u8 }`, where the number tells how long the list is. -/
def strings : Ty := .struct (.cons (.vec (.lone .string)) (.cons (.number .u8) .nil))

instance : DecidableEq strings.Val := inferInstanceAs (DecidableEq (List String × BitVec 8 × Unit))

def stringsNames : strings.Names := (fun i => if i = 0 then "list" else "list_fixed", (), (), ())

theorem strings_distinct : strings.Distinct stringsNames := by
  refine ⟨fun i j v w hi hj h => ?_, trivial, trivial, trivial⟩
  match i, j with
  | 0, 0 | 1, 1 => rfl
  | 0, 1 | 1, 0 => exact absurd h (by decide)
  | _ + 2, _ => exact nomatch hi
  | _, _ + 2 => exact nomatch hj

def stringsBytes : Bytes := [9, 0, 0, 0, 2, 1, 0, 0, 0, 97, 0, 0, 0, 0]

theorem Ty.consumes_iff_strings : strings.RunConsumes stringsNames stringsBytes := by
  have hread : strings.fromBytesNamed stringsNames stringsBytes = .ok (["a", ""], 2#8, ()) := by
    decide +kernel
  have hall : (strings.trace stringsNames stringsBytes).all (fun
      | .string payload => (asBytes (fromUtf8Lossy payload)).length == payload.length
      | .cow => false
      | .call _ _ _ => true) = true := by decide +kernel
  have hclear : .cow ∉ strings.trace stringsNames stringsBytes := fun hmem =>
    absurd (List.all_eq_true.mp hall _ hmem) (by decide)
  exact (Ty.consumes_iff strings ⟨trivial, trivial, trivial⟩ stringsNames strings_distinct
    stringsBytes (["a", ""], 2#8, ()) hread).mpr
    ⟨hclear, fun payload hmem => beq_iff_eq.mp (List.all_eq_true.mp hall _ hmem)⟩
    strings stringsNames stringsBytes List.mem_cons_self

instance : DecidableEq (Ty.struct clash).Val :=
  inferInstanceAs (DecidableEq (String × BitVec 64 × Unit))

/-- A byte that is no UTF-8 becomes three: five bytes are read, and `byte_len` is seven. A `Cow<P>`
is read from two bytes, and its length is never found. With the names `a` and `a_fixed` it is the
number that tells how long the string is. -/
theorem Ty.string_not_consumes :
    ((Ty.lone .string).Accepted ∧
      (Ty.lone .string).runReadNamed () [1, 0, 0, 0, 0xFF] = .ok ("\uFFFD", 5) ∧
      (Ty.lone .string).runByteLen "\uFFFD" = .ok 7 ∧
      ¬ (Ty.lone .string).RunConsumes () [1, 0, 0, 0, 0xFF]) ∧
    (cowPoint.Accepted ∧
      cowPoint.runReadNamed cowPoint.anyNames [1, 0] = .ok ((.owned (1#16, ()), ()), 2) ∧
      cowPoint.runByteLen (.owned (1#16, ()), ()) = .hang ∧
      ¬ cowPoint.RunConsumes cowPoint.anyNames [1, 0]) ∧
    (Ty.struct clash).Accepted ∧
    (Ty.struct clash).runReadNamed (clashNames, (), (), ())
      [0, 0, 0, 0, 1, 0, 0, 0, 0, 0, 0, 0, 0xFF] = .ok (("\uFFFD", 1#64, ()), 13) ∧
    (Ty.struct clash).runByteLen ("\uFFFD", 1#64, ()) = .ok 15 ∧
    ¬ (Ty.struct clash).RunConsumes (clashNames, (), (), ())
      [0, 0, 0, 0, 1, 0, 0, 0, 0, 0, 0, 0, 0xFF] := by
  have hread : (Ty.lone .string).runReadNamed () [1, 0, 0, 0, 0xFF] = .ok ("\uFFFD", 5) := by
    decide +kernel
  have hlen : (Ty.lone .string).runByteLen "\uFFFD" = .ok 7 := by decide +kernel
  have hcow : cowPoint.runReadNamed cowPoint.anyNames [1, 0] = .ok ((.owned (1#16, ()), ()), 2) :=
    rfl
  have hhang : cowPoint.runByteLen (.owned (1#16, ()), ()) = .hang := rfl
  have hclash : (Ty.struct clash).runReadNamed (clashNames, (), (), ())
      [0, 0, 0, 0, 1, 0, 0, 0, 0, 0, 0, 0, 0xFF] = .ok (("\uFFFD", 1#64, ()), 13) := by
    decide +kernel
  have hclashLen : (Ty.struct clash).runByteLen ("\uFFFD", 1#64, ()) = .ok 15 := by decide +kernel
  refine ⟨⟨trivial, hread, hlen, fun h => ?_⟩,
    ⟨⟨⟨by decide, by decide, trivial, trivial⟩, trivial⟩, hcow, hhang, fun h => ?_⟩,
    ⟨trivial, trivial, trivial⟩, hclash, hclashLen, fun h => ?_⟩
  · exact absurd (hlen.symm.trans (h _ _ hread).1) (by decide)
  · cases hhang.symm.trans (h _ _ hcow).1
  · exact absurd (hclashLen.symm.trans (h _ _ hclash).1) (by decide)

end MiniUdp.Derive
