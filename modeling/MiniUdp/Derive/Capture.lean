import MiniUdp.Derive.Named

/-!
# Captured headers

The value of a field `a_fixed` and the header of a field `a` have one name
(`asTokens_eq_fixedIdent`). If one of the two is used after the other has been
bound, they are taken for each other (`Captures`). Nothing else can go wrong:
what named fields are read as depends on their names only by who captures whom
(`Fields.readNamed_eq_iff`).
-/

namespace MiniUdp.Derive

open Utf8

/-! ## Types -/

/-- The type of a local, as far as the code depends on it. -/
inductive LocalTy where
  | usize
  | bool
  | other (v : Value)
  deriving DecidableEq

mutual

def Value.localTy : Value → LocalTy
  | .bool => .bool
  | .number (.usize _) => .usize
  | .delegated t => t.localTy
  | .number n => .other (.number n)
  | .emptyTuple => .other .emptyTuple
  | .string => .other .string
  | .cow v => .other (.cow v)
  | .option v => .other (.option v)
  | .array t n => .other (.array t n)
  | .vec t => .other (.vec t)

def Ty.localTy : Ty → LocalTy
  | .lone v => v.localTy
  | .struct fs => .other (.delegated (.struct fs))
  | .enum vs => .other (.delegated (.enum vs))

end

abbrev Types := List (String × LocalTy)

/-- The `let` of the fixed part. -/
def Value.typeFixed (ident : String) : Value → Types → Types
  | .emptyTuple, Γ => (asTokens ident, .other .emptyTuple) :: Γ
  | .bool, Γ => (asTokens ident, .bool) :: Γ
  | .number n, Γ => (asTokens ident, (Value.number n).localTy) :: Γ
  | .option _, Γ => (fixedIdent ident, .bool) :: Γ
  | .string, Γ | .vec _, Γ => (fixedIdent ident, .usize) :: Γ
  | .cow _, Γ | .array _ _, Γ | .delegated _, Γ => Γ

/-- The `let` of the variable part. -/
def Value.typeVariable (v : Value) (ident : String) (Γ : Types) : Types :=
  if v.isFixed then Γ else (asTokens ident, v.localTy) :: Γ

def Number.isInteger : Number → Bool
  | .f32 | .f64 => false
  | .u8 | .i8 | .u16 | .i16 | .u32 | .i32 | .u64 | .i64 | .usize _ | .isize _ | .u128 | .i128 => true

/-- What a header may be taken from. -/
def Value.Takes : Value → LocalTy → Prop
  | .string, τ => τ = .usize
  | .option _, τ => τ = .bool
  | .vec _, τ => τ = .usize ∨ ∃ n, τ = .other (.number n) ∧ n.isInteger = true
  | .emptyTuple, _ | .bool, _ | .number _, _ | .cow _, _ | .array _ _, _ | .delegated _, _ => True

namespace Fields

def typeFixed (names : Nat → String) : Fields → Nat → Types → Types
  | .nil, _, Γ => Γ
  | .cons v fs, i, Γ => fs.typeFixed names (i + 1) (v.typeFixed (names i) Γ)

def typeVariable (names : Nat → String) : Fields → Nat → Types → Types
  | .nil, _, Γ => Γ
  | .cons v fs, i, Γ => fs.typeVariable names (i + 1) (v.typeVariable (names i) Γ)

/-- Every header is used at a type it may have. -/
def HeadersTyped (names : Nat → String) : Fields → Nat → Types → Prop
  | .nil, _, _ => True
  | .cons v fs, i, Γ =>
    (v.hasHeader = true → ∃ τ, Γ.lookup (fixedIdent (names i)) = some τ ∧ v.Takes τ) ∧
    fs.HeadersTyped names (i + 1) (v.typeVariable (names i) Γ)

/-- Every field gets a local of its type. -/
def ValuesTyped (names : Nat → String) : Fields → Nat → Types → Prop
  | .nil, _, _ => True
  | .cons v fs, i, Γ => Γ.lookup (asTokens (names i)) = some v.localTy ∧
    fs.ValuesTyped names (i + 1) Γ

def get? : Fields → Nat → Option Value
  | .nil, _ => none
  | .cons v _, 0 => some v
  | .cons _ fs, i + 1 => fs.get? i

end Fields

/-- Different fields have different names. -/
def Fields.Distinct (fs : Fields) (names : Nat → String) : Prop :=
  ∀ i j v w, fs.get? i = some v → fs.get? j = some w → names i = names j → i = j

/-- The type with these fields compiles. -/
structure Fields.Compiles (fs : Fields) (names : Nat → String) : Prop where
  accepted : fs.Accepted
  distinct : fs.Distinct names
  headers : fs.HeadersTyped names 0 (fs.typeFixed names 0 [])
  values : fs.ValuesTyped names 0 (fs.typeVariable names 0 (fs.typeFixed names 0 []))

/-- The header of field `i` and the value of field `j` have one name, and one of them is bound
before the other is used: all headers are bound before the variable parts, and so is the value of a
number, a flag or a unit. -/
def Fields.Captures (fs : Fields) (names : Nat → String) (i j : Nat) : Prop :=
  ∃ v w, fs.get? i = some v ∧ fs.get? j = some w ∧ v.hasHeader = true ∧
    names j = names i ++ "_fixed" ∧ (w.isFixed = true ∨ j < i)

/-- `a: String` and `a_fixed: usize`. -/
def clash : Fields := .cons .string (.cons (.number (.usize .bits64)) .nil)

def clashNames (i : Nat) : String := if i = 0 then "a" else "a_fixed"

/-! ## Namings with the same captures -/

/-- What is looked up by name. -/
inductive Ident where
  | value (i : Nat)
  | header (i : Nat)

def Ident.name (names : Nat → String) : Ident → String
  | value i => asTokens (names i)
  | header i => fixedIdent (names i)

/-- Identifiers that are bound in the fixed parts before field `k`. -/
def Fields.LiveFixed (fs : Fields) (k : Nat) : Ident → Prop
  | .value j => ∃ w, fs.get? j = some w ∧ w.isFixed = true ∧ j < k
  | .header i => ∃ v, fs.get? i = some v ∧ v.hasHeader = true ∧ i < k

/-- Identifiers that are bound by then and looked up from the variable part of field `k` on. -/
def Fields.Live (fs : Fields) (k : Nat) : Ident → Prop
  | .value j => ∃ w, fs.get? j = some w ∧ (w.isFixed = true ∨ j < k)
  | .header i => ∃ v, fs.get? i = some v ∧ v.hasHeader = true ∧ k ≤ i

/-- A field binds a value, a header or nothing in its fixed part. -/
theorem Value.letFixed_cases (v : Value) (f : v.Fixed) :
    (v.isFixed = true ∧ ∃ l, ∀ ident s, v.letFixed ident f s = (asTokens ident, l) :: s) ∨
    (v.hasHeader = true ∧ ∃ l, ∀ ident s, v.letFixed ident f s = (fixedIdent ident, l) :: s) ∨
    (v.isFixed = false ∧ v.hasHeader = false ∧ ∀ ident s, v.letFixed ident f s = s) := by
  cases v with
  | emptyTuple | bool | number n => exact .inl ⟨rfl, _, fun _ _ => rfl⟩
  | string | vec t | option v => exact .inr (.inl ⟨rfl, _, fun _ _ => rfl⟩)
  | cow v | array t n | delegated t => exact .inr (.inr ⟨rfl, rfl, fun _ _ => rfl⟩)

theorem Fields.lt_of_get? {all : Fields} {k : Nat} (h : ∀ m, all.get? (k + m) = Fields.nil.get? m)
    {j : Nat} {v : Value} (hj : all.get? j = some v) : j < k := by
  by_contra hno
  have hnone := h (j - k)
  rw [Nat.add_sub_cancel' (Nat.le_of_not_lt hno), hj] at hnone
  exact nomatch hnone

theorem Fields.get?_suffix {all fs : Fields} {k : Nat} {v : Value}
    (h : ∀ m, all.get? (k + m) = (Fields.cons v fs).get? m) (m : Nat) :
    all.get? (k + 1 + m) = fs.get? m := by
  rw [Nat.add_assoc, Nat.add_comm 1]
  exact h (m + 1)

theorem Fields.liveFixed_succ {fs : Fields} {k : Nat} {v : Value} (hk : fs.get? k = some v)
    {u : Ident} (hu : fs.LiveFixed (k + 1) u) : fs.LiveFixed k u ∨
      (u = .value k ∧ v.isFixed = true) ∨ (u = .header k ∧ v.hasHeader = true) := by
  cases u with
  | value j =>
    obtain ⟨w, hj, hw, hlt⟩ := hu
    rcases Nat.lt_succ_iff_lt_or_eq.mp hlt with hlt | rfl
    · exact .inl ⟨w, hj, hw, hlt⟩
    · obtain rfl := Option.some.inj (hk.symm.trans hj)
      exact .inr (.inl ⟨rfl, hw⟩)
  | header i =>
    obtain ⟨w, hi, hw, hlt⟩ := hu
    rcases Nat.lt_succ_iff_lt_or_eq.mp hlt with hlt | rfl
    · exact .inl ⟨w, hi, hw, hlt⟩
    · obtain rfl := Option.some.inj (hk.symm.trans hi)
      exact .inr (.inr ⟨rfl, hw⟩)

theorem Fields.liveFixed_of_live {all : Fields} {k : Nat}
    (h : ∀ m, all.get? (k + m) = Fields.nil.get? m) {u : Ident} (hu : all.Live 0 u) :
    all.LiveFixed k u := by
  cases u with
  | value j =>
    obtain ⟨w, hj, hw⟩ := hu
    exact ⟨w, hj, hw.resolve_right (Nat.not_lt_zero j), lt_of_get? h hj⟩
  | header i =>
    obtain ⟨v, hi, hv, -⟩ := hu
    exact ⟨v, hi, hv, lt_of_get? h hi⟩

theorem Fields.live_succ {fs : Fields} {k : Nat} {u : Ident} (hu : fs.Live (k + 1) u) :
    fs.Live k u ∨ u = .value k := by
  cases u with
  | value j =>
    obtain ⟨w, hj, hw⟩ := hu
    rcases hw with hw | hlt
    · exact .inl ⟨w, hj, .inl hw⟩
    · rcases Nat.lt_succ_iff_lt_or_eq.mp hlt with hlt | rfl
      · exact .inl ⟨w, hj, .inr hlt⟩
      · exact .inr rfl
  | header i =>
    obtain ⟨w, hi, hw, hle⟩ := hu
    exact .inl ⟨w, hi, hw, Nat.le_of_succ_le hle⟩

theorem Value.header_congr {v : Value} (h : v.hasHeader = false) (l l' : Option Local) :
    v.header l = v.header l' := by
  cases v with
  | string | vec t | option v => exact nomatch h
  | _ => rfl

theorem Value.letVariable_fixed {v : Value} (h : v.isFixed = true) (ident : String) (o : ByteOffset)
    (s : Scope) (bytes : Bytes) (bytePtr : Nat) :
    v.letVariable ident o s bytes bytePtr = pure (s, bytePtr) := by
  cases v with
  | emptyTuple | bool | number n => rfl
  | _ => exact nomatch h

theorem Fields.captures_iff {fs : Fields} {names : Nat → String} {i j : Nat} {v w : Value}
    (hi : fs.get? i = some v) (hj : fs.get? j = some w) (hv : v.hasHeader = true)
    (hw : w.isFixed = true ∨ j < i) :
    asTokens (names j) = fixedIdent (names i) ↔ fs.Captures names i j := by
  rw [asTokens_eq_fixedIdent]
  constructor
  · exact fun h => ⟨v, w, hi, hj, hv, h, hw⟩
  · rintro ⟨-, -, -, -, -, h, -⟩
    exact h

theorem Value.hasHeader_of_isFixed {v : Value} (h : v.isFixed = true) : v.hasHeader = false := by
  cases v with
  | emptyTuple | bool | number n => rfl
  | _ => exact nomatch h

theorem Fields.Distinct.names_eq_iff {fs : Fields} {names : Nat → String} (hd : fs.Distinct names)
    {i j : Nat} {v w : Value} (hi : fs.get? i = some v) (hj : fs.get? j = some w) :
    names i = names j ↔ i = j :=
  ⟨hd i j v w hi hj, congrArg names⟩

section Same

variable {all : Fields} {names names' : Nat → String} (hd : all.Distinct names)
  (hd' : all.Distinct names') (hsame : ∀ i j, all.Captures names i j ↔ all.Captures names' i j)

include hd hd' in
theorem value_value {i j : Nat} {v w : Value} (hi : all.get? i = some v) (hj : all.get? j = some w) :
    asTokens (names i) = asTokens (names j) ↔ asTokens (names' i) = asTokens (names' j) := by
  rw [asTokens_inj, asTokens_inj, hd.names_eq_iff hi hj, hd'.names_eq_iff hi hj]

include hd hd' in
theorem header_header {i j : Nat} {v w : Value} (hi : all.get? i = some v)
    (hj : all.get? j = some w) :
    fixedIdent (names i) = fixedIdent (names j) ↔ fixedIdent (names' i) = fixedIdent (names' j) := by
  rw [fixedIdent_inj, fixedIdent_inj, hd.names_eq_iff hi hj, hd'.names_eq_iff hi hj]

include hsame in
theorem value_header {i j : Nat} {v w : Value} (hi : all.get? i = some v) (hj : all.get? j = some w)
    (hv : v.hasHeader = true) (hw : w.isFixed = true ∨ j < i) :
    asTokens (names j) = fixedIdent (names i) ↔ asTokens (names' j) = fixedIdent (names' i) := by
  rw [Fields.captures_iff hi hj hv hw, Fields.captures_iff hi hj hv hw, hsame]

include hd hd' hsame

theorem agree_letFixed_step {k : Nat} {v : Value} (hk : all.get? k = some v) (f : v.Fixed)
    {s s' : Scope} (h : Scope.Agree (all.LiveFixed k) (Ident.name names) (Ident.name names') s s') :
    Scope.Agree (all.LiveFixed (k + 1)) (Ident.name names) (Ident.name names')
      (v.letFixed (names k) f s) (v.letFixed (names' k) f s') := by
  rcases v.letFixed_cases f with ⟨hfixed, l, hl⟩ | ⟨hheader, l, hl⟩ | ⟨hfixed, hheader, hl⟩
  · rw [hl, hl]
    refine (h.cons (a := .value k) ?_ l).mono ?_
    · intro u hu
      cases u with
      | value j =>
        obtain ⟨w, hj, -⟩ := hu
        exact value_value hd hd' hj hk
      | header i =>
        obtain ⟨w, hi, hw, -⟩ := hu
        exact eq_comm.trans ((value_header hsame hi hk hw (.inl hfixed)).trans eq_comm)
    · intro u hu
      rcases Fields.liveFixed_succ hk hu with hu | ⟨rfl, -⟩ | ⟨-, hheader⟩
      · exact .inl hu
      · exact .inr rfl
      · rw [Value.hasHeader_of_isFixed hfixed] at hheader
        exact nomatch hheader
  · rw [hl, hl]
    refine (h.cons (a := .header k) ?_ l).mono ?_
    · intro u hu
      cases u with
      | value j =>
        obtain ⟨w, hj, hw, -⟩ := hu
        exact value_header hsame hk hj hheader (.inl hw)
      | header i =>
        obtain ⟨w, hi, -⟩ := hu
        exact header_header hd hd' hi hk
    · intro u hu
      rcases Fields.liveFixed_succ hk hu with hu | ⟨-, hfixed⟩ | ⟨rfl, -⟩
      · exact .inl hu
      · rw [Value.hasHeader_of_isFixed hfixed] at hheader
        exact nomatch hheader
      · exact .inr rfl
  · rw [hl, hl]
    refine h.mono ?_
    intro u hu
    rcases Fields.liveFixed_succ hk hu with hu | ⟨-, hfixed'⟩ | ⟨-, hheader'⟩
    · exact hu
    · rw [hfixed] at hfixed'
      exact nomatch hfixed'
    · rw [hheader] at hheader'
      exact nomatch hheader'

/-- After the fixed parts. -/
theorem agree_letFixed {fs : Fields} {k : Nat} (hsuffix : ∀ m, all.get? (k + m) = fs.get? m)
    (f : fs.Fixed) {s s' : Scope}
    (h : Scope.Agree (all.LiveFixed k) (Ident.name names) (Ident.name names') s s') :
    Scope.Agree (all.Live 0) (Ident.name names) (Ident.name names')
      (fs.letFixed names k f s) (fs.letFixed names' k f s') := by
  match fs, f with
  | .nil, _ =>
    exact h.mono fun _ => Fields.liveFixed_of_live hsuffix
  | .cons v fs, (f, rest) =>
    have hstep := agree_letFixed_step hd hd' hsame (hsuffix 0) f h
    exact agree_letFixed (Fields.get?_suffix hsuffix) rest hstep

omit hd hd' hsame in
theorem bindFields_congr {s s' : Scope} :
    (fs : Fields) → (k : Nat) → (∀ m w, fs.get? m = some w →
      s.lookup (asTokens (names (k + m))) = s'.lookup (asTokens (names' (k + m)))) →
    fs.bindFields names k s = fs.bindFields names' k s'
  | .nil, _, _ => rfl
  | .cons v fs, k, h => by
    have htail := bindFields_congr fs (k + 1) fun m w hm => by
      rw [Nat.add_assoc, Nat.add_comm 1]
      exact h (m + 1) w hm
    have hhead : s.lookup (asTokens (names k)) = s'.lookup (asTokens (names' k)) := h 0 v rfl
    rw [Fields.bindFields, Fields.bindFields, hhead, htail]

/-- The name of a field whose variable part has been read stands for its value. -/
theorem agree_let {k : Nat} {v : Value} (hk : all.get? k = some v) {s s' : Scope}
    (h : Scope.Agree (all.Live k) (Ident.name names) (Ident.name names') s s') (l : Local) :
    Scope.Agree (all.Live (k + 1)) (Ident.name names) (Ident.name names')
      ((asTokens (names k), l) :: s) ((asTokens (names' k), l) :: s') := by
  have hothers : Scope.Agree (fun u => all.Live (k + 1) u ∧ u ≠ .value k) (Ident.name names)
      (Ident.name names') s s' :=
    h.mono fun u hu => (Fields.live_succ hu.1).resolve_right hu.2
  refine (hothers.cons (a := .value k) ?_ l).mono ?_
  · rintro u ⟨hu, -⟩
    cases u with
    | value j =>
      obtain ⟨w, hj, -⟩ := hu
      exact value_value hd hd' hj hk
    | header i =>
      obtain ⟨w, hi, hw, hlt⟩ := hu
      exact eq_comm.trans ((value_header hsame hi hk hw (.inr hlt)).trans eq_comm)
  · intro u hu
    by_cases hvalue : u = .value k
    · exact .inr hvalue
    · exact .inl ⟨hu, hvalue⟩

/-- The variable parts and what comes of them. -/
theorem letVariable_congr {fs : Fields} {k : Nat} (hsuffix : ∀ m, all.get? (k + m) = fs.get? m)
    {s s' : Scope} (h : Scope.Agree (all.Live k) (Ident.name names) (Ident.name names') s s')
    (offset : Nat) (bytes : Bytes) (bytePtr : Nat) :
    (fs.letVariable names k offset s bytes bytePtr >>= fun (s, _) => all.bindFields names 0 s) =
      (fs.letVariable names' k offset s' bytes bytePtr >>= fun (s, _) =>
        all.bindFields names' 0 s) := by
  match fs with
  | .nil =>
    refine bindFields_congr all 0 ?_
    intro j w hj
    rw [Nat.zero_add]
    exact h (.value j) ⟨w, hj, .inr (Fields.lt_of_get? hsuffix hj)⟩
  | .cons v fs =>
    have hk : all.get? k = some v := hsuffix 0
    have hrest := Fields.get?_suffix hsuffix
    simp only [Fields.letVariable, bind_assoc]
    cases hfixed : v.isFixed with
    | true =>
      rw [v.letVariable_fixed hfixed, v.letVariable_fixed hfixed]
      refine letVariable_congr hrest (h.mono fun u hu => ?_) _ bytes bytePtr
      rcases Fields.live_succ hu with hu | rfl
      · exact hu
      · exact ⟨v, hk, .inl hfixed⟩
    | false =>
      rw [v.letsValue hfixed, v.letsValue hfixed]
      have hheader : v.header (s.lookup (fixedIdent (names k))) =
          v.header (s'.lookup (fixedIdent (names' k))) := by
        cases hv : v.hasHeader with
        | true => exact congrArg v.header (h (.header k) ⟨v, hk, hv, Nat.le_refl k⟩)
        | false => exact Value.header_congr hv _ _
      rw [hheader]
      simp only [bind_assoc, pure_bind]
      congr 1
      funext f
      congr 1
      funext ⟨x, bytePtr⟩
      have hlet := agree_let hd hd' hsame hk h (v.toLocal x)
      exact letVariable_congr hrest hlet _ bytes bytePtr

theorem readNamed_congr (offset : Nat) (bytes : Bytes) :
    all.readNamed names offset bytes = all.readNamed names' offset bytes := by
  unfold Fields.readNamed
  congr 1
  funext f
  have hnone : Scope.Agree (all.LiveFixed 0) (Ident.name names) (Ident.name names') ([] : Scope)
      ([] : Scope) := fun _ _ => rfl
  have hsuffix : ∀ m, all.get? (0 + m) = all.get? m := fun m => by rw [Nat.zero_add]
  have hfixed := agree_letFixed hd hd' hsame hsuffix f hnone
  exact letVariable_congr hd hd' hsame hsuffix hfixed offset bytes _

end Same

end MiniUdp.Derive
