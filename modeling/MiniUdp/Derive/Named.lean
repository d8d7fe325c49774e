import MiniUdp.Derive.Decode
import MiniUdp.Lib.Scope

/-!
# The names in derived code

The code that reads named fields keeps what it reads in local variables: the
value of a field `a` in `named_a`, and what its fixed part says of the rest in
`named_a_fixed`. All of them are bound by `let` in one scope, a later one
hiding an earlier one of the same name; the code for what is inside an `Option`
or a `Cow` has a scope of its own inside that one, for a field `inner`. Here a
reader looks its locals up by their names. `readVariablePart` is what comes of
it when each name stands for what was meant (`Value.letVariable_eq`).
-/

namespace MiniUdp.Derive

deriving instance DecidableEq for Value, Ty, Fields, Variants

/-! ## Identifiers -/

/-- `FieldIdentifier::as_tokens` -/
def asTokens (ident : String) : String := "named_" ++ ident

/-- `Field::fixed_ident` -/
def fixedIdent (ident : String) : String := asTokens ident ++ "_fixed"

theorem asTokens_inj {a b : String} : asTokens a = asTokens b ↔ a = b := String.append_right_inj _

theorem fixedIdent_inj {a b : String} : fixedIdent a = fixedIdent b ↔ a = b :=
  (String.append_left_inj _).trans asTokens_inj

/-- The local for a value is called like that for a header. -/
theorem asTokens_eq_fixedIdent {a b : String} : asTokens b = fixedIdent a ↔ b = a ++ "_fixed" := by
  unfold fixedIdent asTokens
  rw [String.append_assoc, String.append_right_inj]

/-! ## Locals -/

/-- The value of a local. Types are told apart as far as the code depends on it; a type that is
only another name for `usize` or `bool` is not. -/
inductive Local where
  | usize (n : Nat)
  | bool (b : Bool)
  | other (v : Value) (x : v.Val)

/-- The locals in scope, the last `let` first. -/
abbrev Scope := List (String × Local)

/-- The local as a value of the type `v`, if it has that type. -/
def Local.cast (v : Value) : Local → Option v.Val
  | .other v' x => if h : v' = v then some (h ▸ x) else none
  | .usize _ | .bool _ => none

def Number.toLocal : (n : Number) → BitVec (8 * n.bytes) → Local
  | .usize _, x => .usize x.toNat
  | n, x => .other (.number n) x

def Number.ofLocal : (n : Number) → Local → Option (BitVec (8 * n.bytes))
  | .usize target, .usize n =>
    if n < 2 ^ (8 * (usize target).bytes) then some (BitVec.ofNat _ n) else none
  | .usize _, .bool _ | .usize _, .other _ _ => none
  | n, l => l.cast (.number n)

mutual

/-- The local for a value. -/
def Value.toLocal : (v : Value) → v.Val → Local
  | .bool, b => .bool b
  | .number n, x => n.toLocal x
  | .delegated t, x => t.toLocal x
  | .emptyTuple, x => .other .emptyTuple x
  | .string, x => .other .string x
  | .cow v, x => .other (.cow v) x
  | .option v, x => .other (.option v) x
  | .array t n, x => .other (.array t n) x
  | .vec t, x => .other (.vec t) x

def Ty.toLocal : (t : Ty) → t.Val → Local
  | .lone v, x => v.toLocal x
  | .struct fs, x => .other (.delegated (.struct fs)) x
  | .enum vs, x => .other (.delegated (.enum vs)) x

end

mutual

/-- The local as the value of a field. -/
def Value.ofLocal : (v : Value) → Local → Option v.Val
  | .bool, .bool b => some b
  | .bool, .usize _ | .bool, .other _ _ => none
  | .number n, l => n.ofLocal l
  | .delegated t, l => t.ofLocal l
  | .emptyTuple, l => l.cast .emptyTuple
  | .string, l => l.cast .string
  | .cow v, l => l.cast (.cow v)
  | .option v, l => l.cast (.option v)
  | .array t n, l => l.cast (.array t n)
  | .vec t, l => l.cast (.vec t)

def Ty.ofLocal : (t : Ty) → Local → Option t.Val
  | .lone v, l => v.ofLocal l
  | .struct fs, l => l.cast (.delegated (.struct fs))
  | .enum vs, l => l.cast (.delegated (.enum vs))

end

theorem Local.cast_eq_some {v : Value} {l : Local} {x : v.Val} :
    l.cast v = some x ↔ l = .other v x := by
  cases l with
  | other v' y =>
    change (if h : v' = v then some (h ▸ y) else none) = some x ↔ _
    constructor
    · intro h
      split at h
      · rename_i hv
        subst hv
        rw [← Option.some.inj h]
      · exact nomatch h
    · intro h
      injection h with hv hx
      subst hv
      obtain rfl := eq_of_heq hx
      rw [dif_pos rfl]
  | _ => exact ⟨fun h => (nomatch h), fun h => (nomatch h)⟩

theorem Number.ofLocal_eq_some {n : Number} {l : Local} {x : BitVec (8 * n.bytes)} :
    n.ofLocal l = some x ↔ l = n.toLocal x := by
  cases n with
  | usize target =>
    cases l with
    | usize k =>
      change (if k < 2 ^ (8 * (usize target).bytes) then some (BitVec.ofNat _ k) else none) = some x ↔
        Local.usize k = .usize x.toNat
      constructor
      · intro h
        split at h
        · rename_i hk
          obtain rfl := Option.some.inj h
          rw [BitVec.toNat_ofNat, Nat.mod_eq_of_lt hk]
        · exact nomatch h
      · intro h
        injection h with h
        subst h
        rw [if_pos x.isLt, BitVec.ofNat_toNat, BitVec.setWidth_eq]
    | _ => exact ⟨fun h => (nomatch h), fun h => (nomatch h)⟩
  | _ => exact Local.cast_eq_some

mutual

theorem Value.ofLocal_eq_some : (v : Value) → {l : Local} → {x : v.Val} →
    (v.ofLocal l = some x ↔ l = v.toLocal x)
  | .bool, l, x => by
    cases l with
    | bool b =>
      constructor
      · intro h
        exact congrArg Local.bool (Option.some.inj h)
      · intro h
        injection h with h
        exact congrArg some h
    | _ => exact ⟨fun h => (nomatch h), fun h => (nomatch h)⟩
  | .number n, _, _ => Number.ofLocal_eq_some
  | .delegated t, _, _ => t.ofLocal_eq_some
  | .emptyTuple, _, _ | .string, _, _ | .cow _, _, _ | .option _, _, _ | .array _ _, _, _
  | .vec _, _, _ => Local.cast_eq_some

theorem Ty.ofLocal_eq_some : (t : Ty) → {l : Local} → {x : t.Val} →
    (t.ofLocal l = some x ↔ l = t.toLocal x)
  | .lone v, _, _ => v.ofLocal_eq_some
  | .struct _, _, _ | .enum _, _, _ => Local.cast_eq_some

end

/-! ## Headers -/

/-- What `0..n` counts, for an integer. -/
def Number.count : (n : Number) → BitVec (8 * n.bytes) → Option Nat
  | .f32, _ | .f64, _ => none
  | .i8, x | .i16, x | .i32, x | .i64, x | .i128, x | .isize _, x => some x.toInt.toNat
  | .u8, x | .u16, x | .u32, x | .u64, x | .u128, x | .usize _, x => some x.toNat

def Local.asUsize : Local → Option Nat
  | .usize n => some n
  | .bool _ | .other _ _ => none

def Local.asFlag : Local → Option Bool
  | .bool b => some b
  | .usize _ | .other _ _ => none

/-- The end of a range from 0, for which any integer will do. -/
def Local.asRange : Local → Option Nat
  | .usize n => some n
  | .other (.number n) x => n.count x
  | .bool _ | .other _ _ => none

/-- A local used at its type. Others the compiler rejects, so that no code gets there. -/
def typed {α : Type} : Option α → Res α
  | some x => .ok x
  | none => .panic

/-- A header from the local used for it. -/
def Value.header : (v : Value) → Option Local → Res v.Fixed
  | .string, l => typed (l.bind Local.asUsize)
  | .vec _, l => typed (l.bind Local.asRange)
  | .option _, l => typed (l.bind Local.asFlag)
  | .emptyTuple, _ | .cow _, _ | .array _ _, _ | .delegated _, _ => pure ()
  | .bool, _ | .number _, _ => .panic

/-! ## Reading -/

/-- The `let` of `read_fixed_part`. -/
def Value.letFixed (ident : String) : (v : Value) → v.Fixed → Scope → Scope
  | .emptyTuple, x, s => (asTokens ident, .other .emptyTuple x) :: s
  | .bool, b, s => (asTokens ident, .bool b) :: s
  | .number n, x, s => (asTokens ident, n.toLocal x) :: s
  | .option _, isSome, s => (fixedIdent ident, .bool isSome) :: s
  | .string, len, s | .vec _, len, s => (fixedIdent ident, .usize len) :: s
  | .cow _, _, s | .array _ _, _, s | .delegated _, _, s => s

/-- `read_variable_part`, with the scope and the `byte_ptr` after it. -/
def Value.letVariable : (v : Value) → String → ByteOffset → Scope → Bytes → Nat → Res (Scope × Nat)
  | .emptyTuple, _, _, s, _, bytePtr | .bool, _, _, s, _, bytePtr | .number _, _, _, s, _, bytePtr =>
    pure (s, bytePtr)
  | .string, ident, _, s, bytes, bytePtr => do
    let len ← typed ((s.lookup (fixedIdent ident)).bind Local.asUsize)
    let (x, bytePtr) ← readString len bytes bytePtr
    pure ((asTokens ident, .other .string x) :: s, bytePtr)
  | .cow v, ident, o, s, bytes, bytePtr => do
    let (f, bytePtr) ← v.readFixedPart o bytes bytePtr
    let (inner, bytePtr) ← v.letVariable "inner" o (v.letFixed "inner" f s) bytes bytePtr
    let x ← typed ((inner.lookup (asTokens "inner")).bind v.ofLocal)
    pure ((asTokens ident, .other (.cow v) (.owned x)) :: s, bytePtr)
  | .option v, ident, _, s, bytes, bytePtr => do
    match ← typed ((s.lookup (fixedIdent ident)).bind Local.asFlag) with
    | true =>
      let (f, bytePtr) ← v.readFixedPart .dynamic bytes bytePtr
      let (inner, bytePtr) ← v.letVariable "inner" .dynamic (v.letFixed "inner" f s) bytes bytePtr
      let x ← typed ((inner.lookup (asTokens "inner")).bind v.ofLocal)
      pure ((asTokens ident, .other (.option v) (some x)) :: s, bytePtr)
    | false => pure ((asTokens ident, .other (.option v) none) :: s, bytePtr)
  | .array t length, ident, _, s, bytes, bytePtr => do
    let (xs, bytePtr) ← readItems (fun bytes => value (t.read bytes)) t.byteLen bytes length bytePtr
    pure ((asTokens ident, .other (.array t length) xs) :: s, bytePtr)
  | .vec t, ident, _, s, bytes, bytePtr => do
    let len ← typed ((s.lookup (fixedIdent ident)).bind Local.asRange)
    let (xs, bytePtr) ← readItems (fun bytes => value (t.read bytes)) t.byteLen bytes len bytePtr
    pure ((asTokens ident, .other (.vec t) xs.val) :: s, bytePtr)
  | .delegated t, ident, _, s, bytes, bytePtr => do
    let rest ← suffixFrom bytes bytePtr
    let x ← value (t.read rest)
    pure ((asTokens ident, t.toLocal x) :: s, bytePtr + t.byteLen x)

/-- The `let`s of the fixed parts of the fields from number `i` on. -/
def Fields.letFixed (names : Nat → String) : (fs : Fields) → Nat → fs.Fixed → Scope → Scope
  | .nil, _, _, s => s
  | .cons v fs, i, (f, rest), s => fs.letFixed names (i + 1) rest (v.letFixed (names i) f s)

def Fields.letVariable (names : Nat → String) :
    Fields → Nat → Nat → Scope → Bytes → Nat → Res (Scope × Nat)
  | .nil, _, _, s, _, bytePtr => pure (s, bytePtr)
  | .cons v fs, i, offset, s, bytes, bytePtr => do
    let (s, bytePtr) ← v.letVariable (names i) (.static offset) s bytes bytePtr
    fs.letVariable names (i + 1) (offset + v.fixedBytes) s bytes bytePtr

/-- `bind_fields` -/
def Fields.bindFields (names : Nat → String) : (fs : Fields) → Nat → Scope → Res fs.Val
  | .nil, _, _ => pure ()
  | .cons v fs, i, s => do
    let x ← typed ((s.lookup (asTokens (names i))).bind v.ofLocal)
    let xs ← fs.bindFields names (i + 1) s
    pure (x, xs)

/-- `Fields::read`: the code for fields with names, from an offset on that is 0 in a struct and
`variantLen` in an enum. -/
def Fields.readNamed (fs : Fields) (names : Nat → String) (offset : Nat) (bytes : Bytes) :
    Res fs.Val := do
  let f ← fs.readFixedPart offset bytes
  let (s, _) ← fs.letVariable names 0 offset (fs.letFixed names 0 f []) bytes (offset + fs.fixedBytes)
  fs.bindFields names 0 s

/-! ## What the scopes inside come to -/

/-- The fixed part binds the value. -/
def Value.isFixed : Value → Bool
  | .emptyTuple | .bool | .number _ => true
  | .string | .cow _ | .option _ | .array _ _ | .vec _ | .delegated _ => false

/-- The fixed part binds a header. -/
def Value.hasHeader : Value → Bool
  | .string | .vec _ | .option _ => true
  | .emptyTuple | .bool | .number _ | .cow _ | .array _ _ | .delegated _ => false

@[simp] theorem typed_some {α : Type} (x : α) : typed (some x) = .ok x := rfl

@[simp] theorem Value.ofLocal_toLocal (v : Value) (x : v.Val) : v.ofLocal (v.toLocal x) = some x :=
  v.ofLocal_eq_some.mpr rfl

/-- The variable part is read with the header that its name stands for, and then the name of the
field stands for the value. -/
def Value.LetsValue (v : Value) : Prop := ∀ ident o s bytes bytePtr,
  v.letVariable ident o s bytes bytePtr = (do
    let f ← v.header (s.lookup (fixedIdent ident))
    let (x, bytePtr) ← v.readVariablePart o f bytes bytePtr
    pure ((asTokens ident, v.toLocal x) :: s, bytePtr))

/-- The fixed part binds the header that the variable part needs. -/
theorem Value.header_letFixed {v : Value} (h : v.isFixed = false) (ident : String) (f : v.Fixed)
    (s : Scope) : v.header ((v.letFixed ident f s).lookup (fixedIdent ident)) = .ok f := by
  cases v with
  | emptyTuple | bool | number => exact nomatch h
  | string | vec t | option v => simp [letFixed, header, Local.asUsize, Local.asRange, Local.asFlag]
  | cow v | array t n | delegated t => rfl

/-- Inside, names stand for what the scope inside binds. -/
theorem Value.inner_eq {v : Value} (h : v.isFixed = false → v.LetsValue) (o : ByteOffset) (s : Scope)
    (bytes : Bytes) (bytePtr : Nat) : (do
      let (f, bytePtr) ← v.readFixedPart o bytes bytePtr
      let (inner, bytePtr) ← v.letVariable "inner" o (v.letFixed "inner" f s) bytes bytePtr
      let x ← typed ((inner.lookup (asTokens "inner")).bind v.ofLocal)
      pure (x, bytePtr)) = v.readInner o bytes bytePtr := by
  unfold readInner
  congr 1
  funext ⟨f, bytePtr⟩
  cases hfixed : v.isFixed with
  | true =>
    cases v with
    | emptyTuple => rfl
    | bool => simp [letVariable, letFixed, ofLocal, readVariablePart]
    | number n =>
      have hn := Value.ofLocal_toLocal (.number n) f
      simp only [letVariable, letFixed, readVariablePart, toLocal, Outcome.pure_def,
        Outcome.bind_ok, Scope.lookup_cons_self, Option.bind_some] at hn ⊢
      rw [hn]
      rfl
    | _ => exact nomatch hfixed
  | false =>
    dsimp only
    rw [h hfixed, Value.header_letFixed hfixed, Outcome.bind_ok]
    simp only [bind_assoc, pure_bind, Scope.lookup_cons_self, Option.bind_some, ofLocal_toLocal,
      typed_some, Outcome.bind_ok]
    exact bind_pure _

theorem Value.letsValue : (v : Value) → v.isFixed = false → v.LetsValue
  | .emptyTuple, h | .bool, h | .number _, h => nomatch h
  | .string, _ => fun _ _ _ _ _ => rfl
  | .cow v, _ => by
    intro ident o s bytes bytePtr
    have hinner := v.inner_eq v.letsValue o s bytes bytePtr
    rw [header, pure_bind, readVariablePart_cow, ← hinner, letVariable]
    simp only [bind_assoc, pure_bind]
    rfl
  | .option v, _ => by
    intro ident o s bytes bytePtr
    rw [header, letVariable]
    congr 1
    funext isSome
    cases isSome with
    | true =>
      have hinner := v.inner_eq v.letsValue .dynamic s bytes bytePtr
      rw [readVariablePart_option, if_pos rfl, ← hinner]
      simp only [bind_assoc, pure_bind]
      rfl
    | false => rfl
  | .array _ _, _ => fun _ _ _ _ _ => rfl
  | .vec _, _ => by
    intro ident o s bytes bytePtr
    rw [header, letVariable]
    congr 1
    funext len
    rw [readVariablePart, bind_assoc]
    rfl
  | .delegated _, _ => by
    intro ident o s bytes bytePtr
    rw [header, pure_bind, letVariable, readVariablePart]
    simp only [bind_assoc, pure_bind]
    rfl

end MiniUdp.Derive
