import MiniUdp.Derive.Panic
import MiniUdp.Derive.Uncaptured

/-!
# What headers count

A header tells how many bytes a string has, how many elements a vector has or
whether an option is there: the amount of the value. Any field may have the
amount 0, and one with a header, or one that a header may be taken from, may
have the amount 1 (`Fields.exists_amounts`).
-/

namespace MiniUdp.Derive

open Utf8

/-! ## Amounts -/

def Local.ty : Local → LocalTy
  | .usize _ => .usize
  | .bool _ => .bool
  | .other v _ => .other v

/-- The number a local counts, or the length of what it holds. -/
def Local.amount : Local → Nat
  | .usize n => n
  | .bool b => b.toNat
  | .other (.number n) x => (n.count x).getD 0
  | .other .string s => (asBytes s).length
  | .other (.vec _) xs => xs.length
  | .other (.option _) x => x.isSome.toNat
  | .other .emptyTuple _ | .other .bool _ | .other (.cow _) _ | .other (.array _ _) _
  | .other (.delegated _) _ => 0

def Value.amount (v : Value) (x : v.Val) : Nat := (v.toLocal x).amount

theorem Number.ty_toLocal (n : Number) (x : BitVec (8 * n.bytes)) :
    (n.toLocal x).ty = (Value.number n).localTy := by
  cases n <;> rfl

mutual

theorem Value.ty_toLocal : (v : Value) → (x : v.Val) → (v.toLocal x).ty = v.localTy
  | .bool, _ | .emptyTuple, _ | .string, _ | .cow _, _ | .option _, _ | .array _ _, _
  | .vec _, _ => rfl
  | .number n, x => n.ty_toLocal x
  | .delegated t, x => t.ty_toLocal x

theorem Ty.ty_toLocal : (t : Ty) → (x : t.Val) → (t.toLocal x).ty = t.localTy
  | .lone v, x => v.ty_toLocal x
  | .struct _, _ | .enum _, _ => rfl

end

/-- What can be a header. -/
def LocalTy.Counts : LocalTy → Prop
  | .usize | .bool => True
  | .other v => ∃ n, v = .number n ∧ n.isInteger = true

/-- The type of a header. -/
def Value.headerTy : Value → LocalTy
  | .option _ => .bool
  | .string | .vec _ | .emptyTuple | .bool | .number _ | .cow _ | .array _ _ | .delegated _ => .usize

theorem Value.Takes.counts {v : Value} {τ : LocalTy} (hv : v.hasHeader = true) (h : v.Takes τ) :
    τ.Counts := by
  cases v with
  | string =>
    obtain rfl : τ = .usize := h
    trivial
  | option v =>
    obtain rfl : τ = .bool := h
    trivial
  | vec t =>
    rcases h with rfl | ⟨n, rfl, hn⟩
    · trivial
    · exact ⟨n, rfl, hn⟩
  | _ => exact nomatch hv

theorem Number.exists_count {n : Number} (h : n.isInteger = true) (x : BitVec (8 * n.bytes)) :
    ∃ c, n.count x = some c := by
  cases n with
  | f32 | f64 => exact nomatch h
  | _ => exact ⟨_, rfl⟩

/-- A header of the same amount as `x` is the header of `x`. -/
theorem Value.header_of_amount {v w : Value} {x : v.Val} {y : w.Val} (hv : v.hasHeader = true)
    (htakes : v.Takes w.localTy) (hamount : w.amount y = v.amount x) (hsmall : v.Small x) :
    v.header (some (w.toLocal y)) = .ok (v.fixedOf x) := by
  have hty := w.ty_toLocal y
  unfold amount at hamount
  generalize w.toLocal y = l at hty hamount
  rw [← hty] at htakes
  cases v with
  | string =>
    cases l with
    | usize n =>
      obtain rfl : n = (asBytes x).length := hamount
      exact congrArg Outcome.ok (Nat.mod_eq_of_lt hsmall).symm
    | _ => exact nomatch htakes
  | option v =>
    cases l with
    | bool b =>
      have hb : b = x.isSome := by
        change b.toNat = x.isSome.toNat at hamount
        cases b <;> cases x <;> first | rfl | exact nomatch hamount
      exact congrArg Outcome.ok hb
    | _ => exact nomatch htakes
  | vec t =>
    have hlen : x.length % 2 ^ 32 = x.length := Nat.mod_eq_of_lt hsmall.1
    cases l with
    | usize n =>
      obtain rfl : n = x.length := hamount
      exact congrArg Outcome.ok hlen.symm
    | bool b => exact htakes.elim (fun h => nomatch h) fun ⟨_, h, _⟩ => nomatch h
    | other u z =>
      rcases htakes with h | ⟨n, h, hn⟩
      · exact nomatch h
      · obtain rfl : u = .number n := LocalTy.other.inj h
        obtain ⟨c, hc⟩ := Number.exists_count hn z
        have hcount : c = x.length := by
          change (n.count z).getD 0 = x.length at hamount
          rwa [hc] at hamount
        show typed (n.count z) = _
        rw [hc, hcount]
        exact congrArg Outcome.ok hlen.symm
  | _ => exact nomatch hv

/-- The local for a header. -/
def Value.headerLocal : (v : Value) → v.Fixed → Option Local
  | .string, len | .vec _, len => some (.usize len)
  | .option _, isSome => some (.bool isSome)
  | .emptyTuple, _ | .bool, _ | .number _, _ | .cow _, _ | .array _ _, _ | .delegated _, _ => none

/-- The header of a value. -/
theorem Value.exists_headerLocal {v : Value} (hv : v.hasHeader = true) {x : v.Val}
    (hsmall : v.Small x) : ∃ l, v.headerLocal (v.fixedOf x) = some l ∧ l.ty = v.headerTy ∧
      l.amount = v.amount x ∧ v.header (some l) = .ok (v.fixedOf x) := by
  cases v with
  | string => exact ⟨_, rfl, rfl, Nat.mod_eq_of_lt hsmall, rfl⟩
  | vec t => exact ⟨_, rfl, rfl, Nat.mod_eq_of_lt hsmall.1, rfl⟩
  | option v => exact ⟨_, rfl, rfl, rfl, rfl⟩
  | _ => exact nomatch hv

theorem Value.amount_of_header_zero {v : Value} (hv : v.hasHeader = true) {l : Local} {f : v.Fixed}
    (hf : v.header (some l) = .ok f) (hl : l.amount = 0) {o : ByteOffset} {bytes : Bytes}
    {bytePtr r : Nat} {x : v.Val} (hx : v.readVariablePart o f bytes bytePtr = .ok (x, r)) :
    v.amount x = 0 := by
  cases v with
  | string =>
    cases l with
    | usize n =>
      obtain rfl : n = 0 := hl
      obtain rfl : 0 = f := Outcome.ok.inj hf
      obtain ⟨bs, hbs, hx⟩ := Outcome.bind_eq_ok.mp hx
      cases hx
      unfold sliceOf at hbs
      split at hbs
      · have hnil : bs = [] := by
          rw [← Outcome.ok.inj hbs]
          simp
        rw [hnil]
        decide +kernel
      · exact nomatch hbs
    | _ => exact nomatch hf
  | option v =>
    cases l with
    | bool b =>
      obtain rfl : b = false := by
        cases b with
        | false => rfl
        | true => exact nomatch hl
      obtain rfl : false = f := Outcome.ok.inj hf
      cases hx
      rfl
    | _ => exact nomatch hf
  | vec t =>
    have hzero : f = 0 := by
      cases l with
      | usize n =>
        obtain rfl : n = f := Outcome.ok.inj hf
        exact hl
      | bool b => exact nomatch hf
      | other u z =>
        cases u with
        | number n =>
          change typed (n.count z) = .ok f at hf
          change (n.count z).getD 0 = 0 at hl
          cases hc : n.count z with
          | none =>
            rw [hc] at hf
            exact nomatch hf
          | some c =>
            rw [hc] at hf hl
            exact (Outcome.ok.inj hf).symm.trans hl
        | _ => exact nomatch hf
    subst hzero
    obtain ⟨⟨xs, _⟩, hxs, hx⟩ := Outcome.bind_eq_ok.mp hx
    cases hx
    exact xs.property
  | _ => exact nomatch hv

/-! ## Values with given amounts -/

mutual

theorem Value.amount_owned : (v : Value) → (x : v.Val) → v.amount (v.owned x) = v.amount x
  | .emptyTuple, _ | .bool, _ | .number _, _ | .string, _ | .cow _, _ | .array _ _, _ => rfl
  | .option _, some _ | .option _, none => rfl
  | .vec _, _ => List.length_map _
  | .delegated t, x => t.amount_owned x

theorem Ty.amount_owned : (t : Ty) → (x : t.Val) →
    (t.toLocal (t.owned x)).amount = (t.toLocal x).amount
  | .lone v, x => v.amount_owned x
  | .struct _, _ | .enum _, _ => rfl

end

theorem Number.amount_zero (n : Number) : (n.toLocal 0).amount = 0 := by
  cases n with
  | usize target | isize target => cases target <;> rfl
  | _ => rfl

theorem Number.exists_amount_one {n : Number} (h : (Value.number n).localTy.Counts) :
    ∃ x, (n.toLocal x).amount = 1 := by
  refine ⟨1, ?_⟩
  cases n with
  | usize target | isize target => cases target <;> rfl
  | f32 | f64 =>
    obtain ⟨n, hn, h⟩ := h
    cases hn
    exact nomatch h
  | _ => rfl

mutual

theorem Value.exists_amount_zero : (v : Value) → v.Accepted → ∃ x : v.Val, v.Small x ∧ v.amount x = 0
  | .emptyTuple, _ => ⟨(), trivial, rfl⟩
  | .bool, _ => ⟨false, trivial, rfl⟩
  | .number n, _ => ⟨0, trivial, n.amount_zero⟩
  | .string, _ => ⟨"", (by decide +kernel : (asBytes "").length < 2 ^ 32), by decide +kernel⟩
  | .cow v, h =>
    have ⟨x, hx⟩ := Value.exists_small (.cow v) h
    ⟨x, hx, rfl⟩
  | .option _, _ => ⟨none, trivial, rfl⟩
  | .array t n, h =>
    have ⟨x, hx⟩ := Value.exists_small (.array t n) h
    ⟨x, hx, rfl⟩
  | .vec _, _ => ⟨[], ⟨Nat.two_pow_pos 32, fun _ hx => nomatch hx⟩, rfl⟩
  | .delegated t, h => t.exists_amount_zero h

theorem Ty.exists_amount_zero : (t : Ty) → t.Accepted →
    ∃ x : t.Val, t.Small x ∧ (t.toLocal x).amount = 0
  | .lone v, h => v.exists_amount_zero h
  | .struct fs, h =>
    have ⟨x, hx⟩ := Ty.exists_small (.struct fs) h
    ⟨x, hx, rfl⟩
  | .enum vs, h =>
    have ⟨x, hx⟩ := Ty.exists_small (.enum vs) h
    ⟨x, hx, rfl⟩

end

theorem not_counts {v : Value} (h : ∀ n, v ≠ .number n) : ¬(LocalTy.other v).Counts :=
  fun ⟨n, hn, _⟩ => h n hn

theorem Value.not_counts_of_hasHeader {v : Value} (h : v.hasHeader = true) : ¬v.localTy.Counts := by
  cases v with
  | string | vec t | option v => exact not_counts fun _ h => nomatch h
  | _ => exact nomatch h

mutual

theorem Value.exists_amount_one : (v : Value) → v.Accepted → v.localTy.Counts →
    ∃ x : v.Val, v.Small x ∧ v.amount x = 1
  | .bool, _, _ => ⟨true, trivial, rfl⟩
  | .number _, _, h =>
    have ⟨x, hx⟩ := Number.exists_amount_one h
    ⟨x, trivial, hx⟩
  | .delegated t, ha, h => t.exists_amount_one ha h
  | .emptyTuple, _, h | .string, _, h | .cow _, _, h | .option _, _, h | .array _ _, _, h
  | .vec _, _, h => absurd h (not_counts fun _ h => nomatch h)

theorem Ty.exists_amount_one : (t : Ty) → t.Accepted → t.localTy.Counts →
    ∃ x : t.Val, t.Small x ∧ (t.toLocal x).amount = 1
  | .lone v, ha, h => v.exists_amount_one ha h
  | .struct _, _, h | .enum _, _, h => absurd h (not_counts fun _ h => nomatch h)

end

theorem Value.exists_header_one {v : Value} (ha : v.Accepted) (h : v.hasHeader = true) :
    ∃ x : v.Val, v.Small x ∧ v.amount x = 1 := by
  cases v with
  | string => exact ⟨"a", (by decide +kernel : (asBytes "a").length < 2 ^ 32), by decide +kernel⟩
  | vec t =>
    obtain ⟨x, hx⟩ := Ty.exists_small t ha
    refine ⟨[x], ⟨(by decide : 1 < 2 ^ 32), fun y hy => ?_⟩, rfl⟩
    obtain rfl := List.mem_singleton.mp hy
    exact hx
  | option v =>
    obtain ⟨x, hx⟩ := Value.exists_small v ha
    exact ⟨some x, hx, rfl⟩
  | _ => exact nomatch h

theorem Fields.exists_amounts : (fs : Fields) → fs.Accepted → (a : Nat → Nat) →
    (∀ i v, fs.get? i = some v → a i = 0 ∨ a i = 1 ∧ (v.hasHeader = true ∨ v.localTy.Counts)) →
    ∃ xs : fs.Val, fs.Small xs ∧ ∀ i v x, fs.nth? xs i = some ⟨v, x⟩ → v.amount x = a i
  | .nil, _, _, _ => ⟨(), trivial, fun _ _ _ h => nomatch h⟩
  | .cons v fs, haccepted, a, ha => by
    obtain ⟨xs, hxs, hamounts⟩ := fs.exists_amounts haccepted.2 (fun i => a (i + 1))
      fun i w hi => ha (i + 1) w hi
    have hv : ∃ x : v.Val, v.Small x ∧ v.amount x = a 0 := by
      rcases ha 0 v rfl with h | ⟨h, hheader | hcounts⟩
      · rw [h]
        exact v.exists_amount_zero haccepted.1
      · rw [h]
        exact Value.exists_header_one haccepted.1 hheader
      · rw [h]
        exact v.exists_amount_one haccepted.1 hcounts
    obtain ⟨x, hx, hamount⟩ := hv
    refine ⟨(x, xs), ⟨hx, hxs⟩, fun i w y hi => ?_⟩
    cases i with
    | zero =>
      cases hi
      exact hamount
    | succ i => exact hamounts i w y hi

theorem Value.headerTy_cases (v : Value) : v.headerTy = .usize ∨ v.headerTy = .bool := by
  cases v <;> first | exact .inl rfl | exact .inr rfl

theorem Local.eq_of_amount {l l' : Local} {v : Value} (hl : l.ty = v.headerTy)
    (hl' : l'.ty = v.headerTy) (h : l.amount = l'.amount) : l = l' := by
  have hty := hl.trans hl'.symm
  cases l with
  | usize n =>
    cases l' with
    | usize n' => exact congrArg Local.usize h
    | _ => exact nomatch hty
  | bool b =>
    cases l' with
    | bool b' =>
      have hb : b.toNat = b'.toNat := h
      cases b <;> cases b' <;> first | rfl | exact nomatch hb
    | _ => exact nomatch hty
  | other u z =>
    rcases v.headerTy_cases with hv | hv
    · exact nomatch hl.trans hv
    · exact nomatch hl.trans hv

end MiniUdp.Derive
