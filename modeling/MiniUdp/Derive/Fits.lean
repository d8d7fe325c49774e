import MiniUdp.Derive.Consumed

/-!
# Values that fit their bytes

A string that was decoded from bytes that are no UTF-8 is longer than these,
and `byte_len` of the value with it. A type overruns when that can make a value
longer than all the bytes there are: when its own code makes a string, or the
last part that is sliced is of a type that overruns. No other type does,
whatever its fields are called (`Ty.fits`).
-/

namespace MiniUdp.Derive

open Utf8

/-! ## Types that overrun -/

/-- The code for the variable part slices the bytes at `byte_ptr` whatever the value is. -/
def Value.alwaysSlices : Value → Bool
  | .string | .delegated _ => true
  | .array _ length => length != 0
  | .cow v => v.alwaysSlices
  | .emptyTuple | .bool | .number _ | .option _ | .vec _ => false

/-- The field's own code makes a string. -/
def Value.makesString : Value → Bool
  | .string => true
  | .cow v | .option v => v.makesString
  | .emptyTuple | .bool | .number _ | .array _ _ | .vec _ | .delegated _ => false

def Fields.makesString : Fields → Bool
  | .nil => false
  | .cons v fs => v.makesString || fs.makesString

/-- Some field slices the bytes at `byte_ptr` whatever its value is. -/
def Fields.alwaysSlices : Fields → Bool
  | .nil => false
  | .cons v fs => v.alwaysSlices || fs.alwaysSlices

mutual

def Value.Overruns : Value → Prop
  | .emptyTuple | .bool | .number _ => False
  | .string => True
  | .cow v | .option v => v.Overruns
  | .array t length => length ≠ 0 ∧ t.Overruns
  | .vec t | .delegated t => t.Overruns

def Ty.Overruns : Ty → Prop
  | .lone v => v.Overruns
  | .struct fs => fs.Overruns
  | .enum vs => vs.Overruns

/-- What a field overruns by is missed by a later one that slices the bytes there. -/
def Fields.Overruns : Fields → Prop
  | .nil => False
  | .cons v fs => v.makesString = true ∨ (v.Overruns ∧ fs.alwaysSlices = false) ∨ fs.Overruns

def Variants.Overruns : Variants → Prop
  | .nil => False
  | .cons fs vs => fs.Overruns ∨ vs.Overruns

end

theorem Value.overruns_of_makesString : (v : Value) → v.makesString = true → v.Overruns
  | .string, _ => trivial
  | .cow v, h | .option v, h => v.overruns_of_makesString h

theorem Fields.overruns_of_makesString : (fs : Fields) → fs.makesString = true → fs.Overruns
  | .cons _ fs, h => (Bool.or_eq_true_iff.mp h).elim .inl fun h =>
    .inr (.inr (fs.overruns_of_makesString h))

/-! ## What does not overrun stays in bounds -/

/-- A part that advanced from `bytePtr` to `r` by its length `u`. If it always slices, it started in
bounds, and unless it overruns it ends there. -/
structure Advanced (slices : Bool) (overruns : Prop) (len bytePtr r u : Nat) : Prop where
  eq : r = bytePtr + u
  start : slices = true → bytePtr ≤ len
  stop : ¬ overruns → bytePtr ≤ len → r ≤ len

namespace Advanced

variable {slices slices' : Bool} {overruns overruns' : Prop} {len bytePtr p r u u' : Nat}

theorem stay : Advanced false overruns len bytePtr bytePtr 0 :=
  ⟨rfl, fun h => (nomatch h), fun _ h => h⟩

/-- The second part makes up for the first if it slices where that ends. -/
theorem append (h : Advanced slices overruns len bytePtr p u)
    (h' : Advanced slices' overruns' len p r u') :
    Advanced (slices || slices') ((overruns ∧ slices' = false) ∨ overruns') len bytePtr r
      (u + u') where
  eq := by rw [h'.eq, h.eq, Nat.add_assoc]
  start hs := by
    rcases Bool.or_eq_true_iff.mp hs with hs | hs
    · exact h.start hs
    · have := h.eq
      have := h'.start hs
      omega
  stop hno hb := by
    obtain ⟨hno, hno'⟩ := not_or.mp hno
    apply h'.stop hno'
    by_cases hs : slices' = true
    · exact h'.start hs
    · exact h.stop (fun ho => hno ⟨ho, Bool.eq_false_iff.mpr hs⟩) hb

theorem weaken (h : Advanced slices overruns len bytePtr r u) :
    Advanced false overruns len bytePtr r u := ⟨h.eq, fun h => (nomatch h), h.stop⟩

/-- A fixed part in bounds before it. -/
theorem fixed {fixedBytes : Nat} (hin : InBounds len bytePtr fixedBytes)
    (h : Advanced slices overruns len (bytePtr + fixedBytes) r u) :
    Advanced false overruns len bytePtr r (fixedBytes + u) := by
  have := h.eq
  refine ⟨by omega, fun h => (nomatch h), fun hno hb => h.stop hno ?_⟩
  unfold InBounds at hin
  omega

end Advanced

/-! ## Fields -/

/-- The variable part of a field that makes no string, at a fixed offset and in an `Option`. -/
structure Value.Lands (v : Value) (ns : v.Names) (bytes : Bytes) : Prop where
  static : ∀ offset f bytePtr y r,
    v.readWith ns (.static offset) f bytes bytePtr = .ok (y, r) →
    Advanced v.alwaysSlices v.Overruns bytes.length bytePtr r (v.unknownLength y)
  dynamic : ∀ bytePtr y r, v.readInnerWith ns .dynamic bytes bytePtr = .ok (y, r) →
    Advanced false v.Overruns bytes.length bytePtr r (v.fixedBytes + v.unknownLength y)

/-- A field that is no `Cow` has its variable part at `byte_ptr`. -/
theorem Value.Lands.of_bytePtr {v : Value} {ns : v.Names} {bytes : Bytes} (hcow : v.isCow = false)
    (h : ∀ o f bytePtr y r, v.readWith ns o f bytes bytePtr = .ok (y, r) →
      Advanced v.alwaysSlices v.Overruns bytes.length bytePtr r (v.unknownLength y)) :
    v.Lands ns bytes where
  static offset := h (.static offset)
  dynamic bytePtr y r hread := by
    obtain ⟨⟨f, p⟩, hfixed, hread⟩ := Outcome.bind_eq_ok.mp hread
    obtain ⟨rfl, hin⟩ := v.readFixedPart_ok hcow f hfixed
    exact .fixed hin (h .dynamic f _ y r hread)

theorem Value.Lands.cow {v : Value} {ns : v.Names} {bytes : Bytes} (h : v.Lands ns bytes) :
    Value.Lands (.cow v) ns bytes where
  static offset f bytePtr y r hread := by
    rw [readWith_cow] at hread
    obtain ⟨⟨y', r'⟩, hinner, hy⟩ := Outcome.bind_eq_ok.mp hread
    cases hy
    obtain ⟨⟨f', p⟩, hfixed, hvariable⟩ := Outcome.bind_eq_ok.mp hinner
    obtain rfl : p = bytePtr := v.readFixedPart_static hfixed
    exact h.static offset f' p y' _ hvariable
  dynamic bytePtr y r hread := by
    rw [readInnerWith_cow] at hread
    obtain ⟨⟨y', r'⟩, hinner, hy⟩ := Outcome.bind_eq_ok.mp hread
    cases hy
    exact h.dynamic bytePtr y' _ hinner

theorem Value.Lands.option {v : Value} {ns : v.Names} {bytes : Bytes} (h : v.Lands ns bytes) :
    Value.Lands (.option v) ns bytes :=
  .of_bytePtr rfl fun o isSome bytePtr y r hread => by
    cases isSome with
    | false =>
      cases hread
      exact .stay
    | true =>
      rw [readWith_some] at hread
      obtain ⟨⟨y', r'⟩, hinner, hy⟩ := Outcome.bind_eq_ok.mp hread
      cases hy
      exact h.dynamic bytePtr y' _ hinner

/-- A value is not longer than the bytes it was read from. -/
def Ty.Fits (t : Ty) (ns : t.Names) : Prop :=
  ∀ (bytes : Bytes) (x : t.Val), t.fromBytesNamed ns bytes = .ok x → t.byteLen x ≤ bytes.length

theorem Ty.advanced_of_fits {t : Ty} {ns : t.Names} (h : ¬ t.Overruns → t.Fits ns)
    {bytes rest : Bytes} {bytePtr len : Nat} {x : t.Val}
    (hrest : suffixFrom bytes bytePtr = .ok rest)
    (hx : value (t.runReadNamed ns rest) = .ok x) (hlen : t.runByteLen x = .ok len) :
    Advanced true t.Overruns bytes.length bytePtr (bytePtr + len) (t.byteLen x) := by
  obtain ⟨hb, rfl⟩ := suffixFrom_eq_ok.mp hrest
  obtain ⟨-, rfl⟩ := (t.runByteLen_returnsIff x).of_eq_ok hlen
  refine ⟨rfl, fun _ => hb, fun hno _ => ?_⟩
  have hle := h hno _ x hx
  rw [List.length_drop] at hle
  omega

theorem Ty.advanced_items {t : Ty} {ns : t.Names} (h : ¬ t.Overruns → t.Fits ns) {bytes : Bytes}
    {n bytePtr r : Nat} {xs : { xs : List t.Val // xs.length = n }}
    (hread : runReadItems (fun bytes => value (t.runReadNamed ns bytes)) t.runByteLen bytes n
      bytePtr = .ok (xs, r)) :
    Advanced (n != 0) (n ≠ 0 ∧ t.Overruns) bytes.length bytePtr r
      (xs.val.map t.byteLen).sum := by
  induction n generalizing bytePtr with
  | zero =>
    cases hread
    exact .stay
  | succ n ih =>
    obtain ⟨rest, hrest, hread⟩ := Outcome.bind_eq_ok.mp hread
    obtain ⟨x, hx, hread⟩ := Outcome.bind_eq_ok.mp hread
    obtain ⟨len, hlen, hread⟩ := Outcome.bind_eq_ok.mp hread
    obtain ⟨⟨ys, r'⟩, hys, hr⟩ := Outcome.bind_eq_ok.mp hread
    cases hr
    have hall := (Ty.advanced_of_fits h hrest hx hlen).append (ih hys)
    rw [List.map_cons, List.sum_cons]
    refine ⟨hall.eq, fun _ => hall.start rfl, fun hno => hall.stop ?_⟩
    have ht : ¬ t.Overruns := fun ht => hno ⟨Nat.succ_ne_zero n, ht⟩
    exact fun ho => ho.elim (fun ho => ht ho.1) fun ho => ht ho.2

/-- Fields in a row; `byte_ptr` starts after their fixed parts. -/
def Fields.Lands (fs : Fields) (ns : fs.Names) (bytes : Bytes) : Prop :=
  ∀ offset f bytePtr y r, fs.readWith ns offset f bytes bytePtr = .ok (y, r) →
    Advanced fs.alwaysSlices fs.Overruns bytes.length bytePtr r (fs.unknownLength y)

theorem Fields.Lands.cons {v : Value} {fs : Fields} {n : v.Names} {ns : fs.Names} {bytes : Bytes}
    (hv : v.Lands n bytes) (hfs : fs.Lands ns bytes) :
    Fields.Lands (.cons v fs) (n, ns) bytes := by
  intro offset ⟨f, rest⟩ bytePtr y r hread
  obtain ⟨⟨x, p⟩, hx, hread⟩ := Outcome.bind_eq_ok.mp hread
  obtain ⟨⟨xs, p'⟩, hxs, hy⟩ := Outcome.bind_eq_ok.mp hread
  cases hy
  have hall := (hv.static offset f bytePtr x p hx).append (hfs _ rest p xs r hxs)
  exact ⟨hall.eq, hall.start, fun hno => hall.stop fun ho => hno (.inr ho)⟩

theorem Fields.Lands.both {fs : Fields} {ns : fs.Names} {bytes : Bytes} (h : fs.Lands ns bytes)
    (he : fs.Exact ns bytes) {names : Nat → String} (hd : fs.Distinct names) (hno : ¬ fs.Overruns)
    {offset r : Nat} {x : fs.Val} (hread : fs.runReadBoth ns names offset bytes = .ok (x, r))
    (hoffset : offset ≤ bytes.length) :
    offset + (fs.fixedBytes + fs.unknownLength x) ≤ bytes.length := by
  obtain ⟨-, hin, -, -⟩ := he.both hd hread
  obtain ⟨f, g, ys, -, -, hvariable, hsame⟩ := Fields.runReadBoth_ok hd hread
  have hlands := h offset g _ ys r hvariable
  have hr := hlands.eq
  have hle := hlands.stop hno
  rw [hsame.unknownLength_eq]
  unfold InBounds at hin
  omega

/-! ## Every type -/

mutual

theorem Value.lands : (v : Value) → v.Accepted → v.makesString = false → (ns : v.Names) →
    v.Distinct ns → (bytes : Bytes) → v.Lands ns bytes
  | .emptyTuple, _, _, _, _, _ | .bool, _, _, _, _, _ | .number _, _, _, _, _, _ =>
    .of_bytePtr rfl fun _ _ _ _ _ hread => by
      cases hread
      exact .stay
  | .cow v, h, hno, ns, hns, bytes => .cow (v.lands h.2.2 hno ns hns bytes)
  | .option v, h, hno, ns, hns, bytes => .option (v.lands h hno ns hns bytes)
  | .array t length, h, _, ns, hns, _ => .of_bytePtr rfl fun _ _ _ _ _ hread => by
    rcases hns with rfl | hns
    · cases hread
      exact .stay
    · exact Ty.advanced_items (t.fits h ns hns) hread
  | .vec t, h, _, ns, hns, _ => .of_bytePtr rfl fun _ _ _ _ _ hread => by
    obtain ⟨⟨xs, r⟩, hxs, hy⟩ := Outcome.bind_eq_ok.mp hread
    cases hy
    have hall := (Ty.advanced_items (t.fits h ns hns) hxs).weaken
    exact ⟨hall.eq, hall.start, fun hno => hall.stop fun ho => hno ho.2⟩
  | .delegated t, h, _, ns, hns, _ => .of_bytePtr rfl fun _ _ _ _ _ hread => by
    obtain ⟨rest, hrest, hread⟩ := Outcome.bind_eq_ok.mp hread
    obtain ⟨x, hx, hread⟩ := Outcome.bind_eq_ok.mp hread
    obtain ⟨len, hlen, hy⟩ := Outcome.bind_eq_ok.mp hread
    cases hy
    exact Ty.advanced_of_fits (t.fits h ns hns) hrest hx hlen

/-- A type that does not overrun has no value longer than the bytes it is read from. -/
theorem Ty.fits : (t : Ty) → t.Accepted → (ns : t.Names) → t.Distinct ns → ¬ t.Overruns →
    t.Fits ns
  | .lone v, h, ns, hns, hno, bytes, x, hread => by
    obtain ⟨⟨y, n⟩, hread, hy⟩ := Outcome.bind_eq_ok.mp hread
    cases hy
    rw [Ty.runReadNamed_lone] at hread
    obtain ⟨⟨f, p⟩, hfixed, hvariable⟩ := Outcome.bind_eq_ok.mp hread
    have hstring : v.makesString = false := Bool.eq_false_iff.mpr fun hs =>
      hno (v.overruns_of_makesString hs)
    have hlands := (v.lands h hstring ns hns bytes).static 0 f _ x n hvariable
    have hin := (v.exact h ns hns bytes).inBounds hfixed hvariable
    have hr := hlands.eq
    have hle := hlands.stop hno
    unfold InBounds at hin
    show v.fixedBytes + v.unknownLength x ≤ bytes.length
    omega
  | .struct fs, h, (names, ns), hns, hno, bytes, x, hread => by
    obtain ⟨⟨y, n⟩, hread, hy⟩ := Outcome.bind_eq_ok.mp hread
    cases hy
    rw [Ty.runReadNamed_struct] at hread
    have hlands := fs.lands h (Bool.eq_false_iff.mpr fun hs => hno (fs.overruns_of_makesString hs))
      ns hns.2 bytes
    have hle := hlands.both (fs.exact h ns hns.2 bytes) hns.1 hno hread (Nat.zero_le _)
    rwa [Nat.zero_add] at hle
  | .enum vs, h, ns, hns, hno, bytes, x, hread => by
    obtain ⟨⟨y, n⟩, hread, hy⟩ := Outcome.bind_eq_ok.mp hread
    cases hy
    have hlen : (Ty.enum vs).byteLen x = vs.variantLen + vs.asLength x := Nat.add_comm _ _
    rw [hlen]
    rw [Ty.runReadNamed] at hread
    by_cases hone : vs.length ≤ 1
    · rw [if_pos hone] at hread
      refine vs.fits h.2.2 ns hns hno bytes _ _ x n hread ?_
      rw [Variants.variantLen_of_le_one hone]
      exact Nat.zero_le _
    · rw [if_neg hone] at hread
      obtain ⟨variantId, hid, hread⟩ := Outcome.bind_eq_ok.mp hread
      refine vs.fits h.2.2 ns hns hno bytes _ _ x n hread ?_
      rw [Variants.variantLen_eq_one (by omega) h.2.1]
      exact readByte_ok hid

theorem Fields.lands : (fs : Fields) → fs.Accepted → fs.makesString = false → (ns : fs.Names) →
    fs.DistinctInside ns → (bytes : Bytes) → fs.Lands ns bytes
  | .nil, _, _, _, _, _ => fun _ _ _ _ _ hread => by
    cases hread
    exact .stay
  | .cons v fs, h, hno, (n, ns), hns, bytes =>
    have hno := Bool.or_eq_false_iff.mp hno
    .cons (v.lands h.1 hno.1 n hns.1 bytes) (fs.lands h.2 hno.2 ns hns.2 bytes)

theorem Variants.fits : (vs : Variants) → vs.Accepted → (ns : vs.Names) → vs.Distinct ns →
    ¬ vs.Overruns → ∀ (bytes : Bytes) variantLen variantId x r,
    vs.runReadNamed ns variantLen variantId bytes = .ok (x, r) →
    variantLen ≤ bytes.length → variantLen + vs.asLength x ≤ bytes.length
  | .nil, _, _, _, _, _, _, _, x, _, _, _ => x.elim
  | .cons fs vs, h, ((names, n), _), hns, hno, bytes, variantLen, 0, x, r, hread, hle => by
    rw [Variants.runReadNamed_zero] at hread
    obtain ⟨⟨y, p⟩, hboth, hy⟩ := Outcome.bind_eq_ok.mp hread
    cases hy
    have hno := fun ho => hno (.inl ho)
    have hlands := fs.lands h.1
      (Bool.eq_false_iff.mpr fun hs => hno (fs.overruns_of_makesString hs)) n hns.1.2 bytes
    exact hlands.both (fs.exact h.1 n hns.1.2 bytes) hns.1.1 hno hboth hle
  | .cons _ vs, h, (_, ns), hns, hno, bytes, variantLen, variantId + 1, x, r, hread, hle => by
    obtain ⟨⟨y, p⟩, hvs, hy⟩ := Outcome.bind_eq_ok.mp hread
    cases hy
    exact vs.fits h.2 ns hns.2 (fun ho => hno (.inr ho)) bytes variantLen variantId y _ hvs hle

end

end MiniUdp.Derive
