import MiniUdp.Derive.Quote
import Mathlib.Tactic.Ring
import Mathlib.Tactic.Linarith

/-!
# What the length constants come to

The tokens of `ByteLen` can be pasted as terms of a sum (`Denotes`), except that
the length of an array is pasted behind a `*` without parentheses: of a sum, only
the first term is multiplied. Each array adds `Value.excess` to the constant by
that, and the constants are right just when this makes no difference
(`Input.evaluates_iff`).
-/

namespace MiniUdp.Derive.Quote

open Precedence Operators

variable {τ : Type}

/-! ## The excess -/

/-- What the terms after the first of a sum add up to. -/
def laterTerms (env : Env τ) : Expr Op (Operand τ) → Int
  | .binary .add l r => laterTerms env l + number env r
  | .binary .sub l r => laterTerms env l - number env r
  | .binary _ _ _ | .operand _ | .paren _ | .ite _ _ _ => 0

/-- What the terms of an array's length that are not multiplied make up for. -/
def Value.excess (env : Env τ) : Bound → Value τ → Int
  | b, array ty n => (1 - env.byteLen b ty) * laterTerms env n.expr
  | b, cow v => v.excess env b
  | .max, option v => v.excess env .max
  | .max, vec v => 1000 * v.excess env .max
  | .min, option _ | .min, vec _ => 0
  | _, emptyTuple | _, bool | _, number _ | _, string | _, delegated _ => 0

def fieldsExcess (env : Env τ) (b : Bound) (fs : List (Value τ)) : Int :=
  (fs.map (Value.excess env b)).sum

/-! ## Tokens of a term -/

/-- The value of tokens. -/
def tokensValue (env : Env τ) (ts : Tokens τ) : Option Const := do evaluate env (← parse ts)

/-- `e` is the number `z`, and its tokens may be pasted between a `+` and another. -/
structure IsTerm (env : Env τ) (e : Expr Op (Operand τ)) (z : Int) : Prop where
  wellFormed : e.WellFormed
  binds : e.Binds (prec Op.add)
  start : e.startsWithIf = false
  value : evaluate env e = some (.int z)

def Denotes (env : Env τ) (ts : Tokens τ) (z : Int) : Prop := ∃ e, e.tokens = ts ∧ IsTerm env e z

variable {env : Env τ}

theorem tokensValue_tokens {e : Expr Op (Operand τ)} (h : e.WellFormed) :
    tokensValue env e.tokens = evaluate env e := by
  unfold tokensValue
  rw [parse_tokens h]
  rfl

theorem Denotes.tokensValue {ts : Tokens τ} {z : Int} (h : Denotes env ts z) :
    tokensValue env ts = some (.int z) := by
  obtain ⟨e, rfl, h⟩ := h
  rw [tokensValue_tokens h.wellFormed, h.value]

theorem isTerm_operand (a : Operand τ) : IsTerm env (.operand a) (env.operand a) :=
  ⟨trivial, trivial, rfl, rfl⟩

theorem denotes_operand (a : Operand τ) : Denotes env [.operand a] (env.operand a) :=
  ⟨_, rfl, isTerm_operand a⟩

theorem Denotes.ne_nil {ts : Tokens τ} {z : Int} (h : Denotes env ts z) : ts.isEmpty = false := by
  obtain ⟨e, rfl, -⟩ := h
  cases e with
  | binary o l r => simp [Expr.tokens]
  | _ => rfl

theorem chains_of_prec_add {o : Op} (h : prec o = prec Op.add) : chains o = true := by
  cases o <;> first | rfl | exact nomatch h

theorem add_assoc_of_prec {o : Op} (h : prec o = prec Op.add) {x a b v w : Const}
    (hv : o.apply a b = some v) (hw : Op.add.apply x v = some w) :
    ∃ u, Op.add.apply x a = some u ∧ o.apply u b = some w := by
  cases x with
  | bool p => exact nomatch hw
  | int x =>
    cases o with
    | add =>
      match a, b, hv with
      | .int a, .int b, rfl =>
        obtain rfl := Option.some.inj hw
        exact ⟨_, rfl, by simp only [Op.apply]; ring_nf⟩
    | sub =>
      match a, b, hv with
      | .int a, .int b, rfl =>
        obtain rfl := Option.some.inj hw
        exact ⟨_, rfl, by simp only [Op.apply]; ring_nf⟩
    | mul | le | ge | and => exact nomatch h

/-- Terms are added as they are pasted. -/
theorem Denotes.add {ts us : Tokens τ} {x y : Int} (hx : Denotes env ts x) (hy : Denotes env us y) :
    Denotes env (ts ++ .operator .add :: us) (x + y) := by
  obtain ⟨l, rfl, hl⟩ := hx
  obtain ⟨e, rfl, he⟩ := hy
  refine ⟨l.graft .add e, Expr.tokens_graft, ?_⟩
  refine ⟨Expr.wellFormed_graft hl.wellFormed hl.binds (fun _ => chains_of_prec_add) he.wellFormed,
    Expr.binds_graft (Nat.le_refl _) he.binds, Expr.startsWithIf_graft.trans hl.start, ?_⟩
  refine Expr.eval_graft ?_ he.wellFormed he.binds hl.value he.value rfl
  intro o ho a b v w hv hw
  exact add_assoc_of_prec ho hv hw

theorem Denotes.mul_paren {ts : Tokens τ} {z : Int} (n : Nat) (h : Denotes env ts z) :
    Denotes env [literal n, .operator .mul, .paren ts] (n * z) := by
  obtain ⟨e, rfl, he⟩ := h
  refine ⟨.binary .mul (.operand (.literal n)) (.paren e), rfl, ?_⟩
  refine ⟨⟨⟨trivial, trivial, fun _ => trivial⟩, he.wellFormed, trivial⟩, ?_, rfl, ?_⟩
  · exact (by decide : prec Op.add ≤ prec Op.mul)
  · exact Expr.eval_binary.mpr ⟨_, _, rfl, he.value, rfl⟩

/-! ## Array lengths -/

theorem evaluate_arithmetic {e : Expr Op (Operand τ)} (h : IsArithmetic e) :
    evaluate env e = some (.int (number env e)) := by
  induction e with
  | operand a => rfl
  | paren e ih => exact ih h
  | binary o l r ihl ihr =>
    obtain ⟨ho, hl, hr⟩ := h
    refine Expr.eval_binary.mpr ⟨_, _, ihl hl, ihr hr, ?_⟩
    rcases ho with rfl | rfl | rfl <;> rfl
  | ite c t e => exact nomatch h

theorem binds_of_isArithmetic {e : Expr Op (Operand τ)} (h : IsArithmetic e) :
    e.Binds (prec Op.add) := by
  cases e with
  | binary o l r =>
    show prec Op.add ≤ prec o
    rcases h.1 with rfl | rfl | rfl <;> decide
  | _ => trivial

theorem laterTerms_of_binds {e : Expr Op (Operand τ)} (h : e.Binds (prec Op.mul)) :
    laterTerms env e = 0 := by
  cases e with
  | binary o l r =>
    change prec Op.mul ≤ prec o at h
    cases o with
    | add | sub => exact absurd h (by decide)
    | _ => rfl
  | _ => rfl

theorem evaluate_mul (a : Operand τ) {e : Expr Op (Operand τ)} (h : IsArithmetic e) :
    evaluate env (.binary .mul (.operand a) e) = some (.int (env.operand a * number env e)) :=
  Expr.eval_binary.mpr ⟨_, _, rfl, evaluate_arithmetic h, rfl⟩

/-- Of a sum behind a `*`, only the first term is multiplied. -/
theorem evaluate_graft_mul (a : Operand τ) {e : Expr Op (Operand τ)} (h : IsArithmetic e)
    (hwf : e.WellFormed) : evaluate env (Expr.graft (.operand a) .mul e) =
      some (.int (env.operand a * number env e + (1 - env.operand a) * laterTerms env e)) := by
  induction e with
  | operand b =>
    rw [laterTerms, mul_zero, add_zero]
    exact evaluate_mul a h
  | paren e =>
    rw [laterTerms, mul_zero, add_zero]
    exact evaluate_mul a h
  | ite c t e => exact nomatch h
  | binary o l r ihl _ =>
    obtain ⟨ho, hl, hr⟩ := h
    obtain ⟨⟨hlwf, hlo, -⟩, -⟩ := hwf
    unfold Expr.graft
    rw [if_pos (by rcases ho with rfl | rfl | rfl <;> decide)]
    refine Expr.eval_binary.mpr ⟨_, _, ihl hl hlwf, evaluate_arithmetic hr, ?_⟩
    rcases ho with rfl | rfl | rfl
    · simp only [Op.apply, number, laterTerms]
      ring_nf
    · simp only [Op.apply, number, laterTerms]
      ring_nf
    · simp only [Op.apply, number, laterTerms, laterTerms_of_binds hlo]
      ring_nf

theorem Length.denotes (b : Bound) (ty : τ) (n : Length τ) :
    Denotes env (.operand (.byteLen b ty) :: .operator .mul :: n.expr.tokens)
      (env.byteLen b ty * n.value env + (1 - env.byteLen b ty) * laterTerms env n.expr) := by
  refine ⟨Expr.graft (.operand (.byteLen b ty)) .mul n.expr, Expr.tokens_graft, ?_⟩
  refine ⟨Expr.wellFormed_graft trivial trivial ?_ n.wellFormed,
    Expr.binds_graft (by decide) (binds_of_isArithmetic n.arithmetic), Expr.startsWithIf_graft,
    evaluate_graft_mul _ n.arithmetic n.wellFormed⟩
  intro o ho
  cases o <;> first | rfl | exact nomatch ho

/-! ## Fields -/

/-- The tokens of an unknown part, of which there are none if it is 0. -/
def DenotesPart (env : Env τ) (ts : Tokens τ) (z : Int) : Prop := ts = [] ∧ z = 0 ∨ Denotes env ts z

theorem denotesPart_nil : DenotesPart env [] 0 := .inl ⟨rfl, rfl⟩

theorem DenotesPart.addUnknown {ts us : Tokens τ} {x y : Int} (hx : DenotesPart env ts x)
    (hy : DenotesPart env us y) : DenotesPart env (ByteLen.addUnknown ts us) (x + y) := by
  unfold ByteLen.addUnknown
  obtain ⟨rfl, rfl⟩ | hx := hx
  · rw [Int.zero_add]
    exact hy
  · obtain ⟨rfl, rfl⟩ | hy := hy
    · rw [Int.add_zero, List.append_nil]
      simpa using .inr hx
    · rw [hx.ne_nil, hy.ne_nil]
      exact .inr (hx.add hy)

/-- The constant is `z`, of which the fixed bytes are known. -/
def ByteLen.Denotes (env : Env τ) (b : Bound) (l : ByteLen τ) (z : Int) : Prop :=
  DenotesPart env (l.unknown b) (z - l.fixedBytes)

theorem ByteLen.Denotes.asConstLength {b : Bound} {l : ByteLen τ} {z : Int} (h : l.Denotes env b z) :
    Quote.Denotes env (l.asConstLength b) z := by
  have hfixed : Quote.Denotes env [literal l.fixedBytes] l.fixedBytes := denotes_operand _
  unfold ByteLen.asConstLength
  obtain ⟨hnil, hz⟩ | hz := h
  · rw [hnil, Int.eq_of_sub_eq_zero hz]
    exact hfixed
  · rw [hz.ne_nil, ← add_sub_cancel (l.fixedBytes : Int) z]
    exact hfixed.add hz

theorem ByteLen.Denotes.add {b : Bound} {l l' : ByteLen τ} {x y : Int} (hl : l.Denotes env b x)
    (hl' : l'.Denotes env b y) : (l.add l').Denotes env b (x + y) := by
  have h := DenotesPart.addUnknown hl hl'
  have hz : x + y - ((l.fixedBytes + l'.fixedBytes : Nat) : Int) =
    (x - l.fixedBytes) + (y - l'.fixedBytes) := by omega
  unfold ByteLen.Denotes
  cases b <;> exact hz ▸ h

/-- What the constant of a field is. -/
theorem Value.denotes_length (b : Bound) (v : Value τ) :
    v.length.Denotes env b (v.intended env b + v.excess env b) := by
  unfold ByteLen.Denotes
  induction v generalizing b with
  | emptyTuple => cases b <;> exact denotesPart_nil
  | bool => cases b <;> exact denotesPart_nil
  | number n =>
    have h : (n.bytes : Int) + 0 - n.bytes = 0 := by omega
    cases b <;> exact .inl ⟨rfl, h⟩
  | string =>
    cases b with
    | min => exact denotesPart_nil
    | max => exact .inr (denotes_operand (.literal 1020))
  | cow v ih => cases b <;> exact ih _
  | option v ih =>
    cases b with
    | min => exact denotesPart_nil
    | max =>
      have h := ByteLen.Denotes.asConstLength (ih .max)
      have hz : 1 + v.intended env .max + v.excess env .max - ((1 : Nat) : Int) =
        v.intended env .max + v.excess env .max := by omega
      exact .inr (hz ▸ h)
  | array ty n =>
    have h : Denotes env _ _ := Length.denotes b ty n
    cases b <;> exact .inr ((Int.sub_zero _).symm ▸ h)
  | vec v ih =>
    cases b with
    | min => exact denotesPart_nil
    | max =>
      have h := (ByteLen.Denotes.asConstLength (ih .max)).mul_paren 1000
      have hz : 4 + 1000 * v.intended env .max + 1000 * v.excess env .max - ((4 : Nat) : Int) =
        ((1000 : Nat) : Int) * (v.intended env .max + v.excess env .max) := by omega
      exact .inr (hz ▸ h)
  | delegated ty =>
    have h : Denotes env [.operand (.byteLen b ty)] _ := denotes_operand _
    have hz : (env.byteLen b ty : Int) + 0 - ((0 : Nat) : Int) = env.byteLen b ty := by omega
    cases b <;> exact .inr (hz ▸ h)

theorem denotes_fieldsLength (b : Bound) (fs : List (Value τ)) :
    (fieldsLength fs).Denotes env b (fieldsIntended env b fs + fieldsExcess env b fs) := by
  have hfold : ∀ (fs : List (Value τ)) (l : ByteLen τ) (z : Int), l.Denotes env b z →
      (fs.foldl (fun acc v => acc.add v.length) l).Denotes env b
        (z + (fieldsIntended env b fs + fieldsExcess env b fs)) := by
    intro fs
    induction fs with
    | nil =>
      intro l z h
      exact (Int.add_zero z).symm ▸ h
    | cons v fs ih =>
      intro l z h
      have hsum := ih (l.add v.length) _ (h.add (v.denotes_length b))
      have hz : z + (fieldsIntended env b (v :: fs) + fieldsExcess env b (v :: fs)) =
          z + (v.intended env b + v.excess env b) +
            (fieldsIntended env b fs + fieldsExcess env b fs) := by
        simp only [fieldsIntended, fieldsExcess, List.map_cons, List.sum_cons]
        omega
      exact hz ▸ hsum
  have h := hfold fs (ByteLen.fullyStatic 0) 0 (by cases b <;> exact denotesPart_nil)
  rwa [Int.zero_add] at h

/-! ## Minima and maxima -/

/-- `a` comes before `b` as the bound of the two. -/
def Bound.le : Bound → Int → Int → Prop
  | min, a, b => a ≤ b
  | max, a, b => b ≤ a

instance (b : Bound) (x y : Int) : Decidable (b.le x y) :=
  match b with
  | .min => inferInstanceAs (Decidable (x ≤ y))
  | .max => inferInstanceAs (Decidable (y ≤ x))

theorem Bound.le_refl (b : Bound) (x : Int) : b.le x x := by cases b <;> exact Int.le_refl x

theorem Bound.le_trans {b : Bound} {x y z : Int} (h : b.le x y) (h' : b.le y z) : b.le x z := by
  cases b with
  | min => exact Int.le_trans h h'
  | max => exact Int.le_trans h' h

theorem Bound.le_total (b : Bound) (x y : Int) : b.le x y ∨ b.le y x := by
  cases b with
  | min => exact Int.le_total x y
  | max => exact Int.le_total y x

def IsExtremum (b : Bound) (z : Int) (zs : List Int) : Prop := z ∈ zs ∧ ∀ x ∈ zs, b.le z x

theorem IsExtremum.eq_extremum {b : Bound} {z : Int} {zs : List Int} (h : IsExtremum b z zs) :
    b.extremum zs = z := by
  cases b with
  | min => exact congrArg (Option.getD · 0) (List.min?_eq_some_iff.mpr h)
  | max => exact congrArg (Option.getD · 0) (List.max?_eq_some_iff.mpr h)

theorem isExtremum_cons {b : Bound} {x : Int} {zs : List Int} (h : ∀ z ∈ zs, b.le x z) :
    IsExtremum b x (x :: zs) := by
  refine ⟨List.mem_cons_self, fun y hy => ?_⟩
  rcases List.mem_cons.mp hy with rfl | hy
  · exact b.le_refl y
  · exact h y hy

theorem IsExtremum.cons {b : Bound} {x z : Int} {zs : List Int} (h : IsExtremum b z zs)
    (hx : ¬∀ y ∈ zs, b.le x y) : IsExtremum b z (x :: zs) := by
  refine ⟨List.mem_cons_of_mem x h.1, fun y hy => ?_⟩
  rcases List.mem_cons.mp hy with rfl | hy
  · simp only [not_forall] at hx
    obtain ⟨w, hw, hno⟩ := hx
    exact Bound.le_trans (h.2 w hw) ((b.le_total y w).resolve_left hno)
  · exact h.2 y hy

theorem apply_operator (b : Bound) (x y : Int) :
    b.operator.apply (.int x) (.int y) = some (.bool (decide (b.le x y))) := by
  cases b <;> rfl

theorem prec_operator (b : Bound) : prec b.operator + 1 = prec Op.add := by cases b <;> rfl

/-- A comparison of two terms. -/
theorem IsTerm.compare {b : Bound} {l r : Expr Op (Operand τ)} {x y : Int} (hl : IsTerm env l x)
    (hr : IsTerm env r y) : (Expr.binary b.operator l r).WellFormed ∧
      evaluate env (.binary b.operator l r) = some (.bool (decide (b.le x y))) := by
  have hprec := prec_operator b
  refine ⟨⟨⟨hl.wellFormed, hl.binds.mono (by omega), fun _ => hprec ▸ hl.binds⟩, hr.wellFormed,
    hprec ▸ hr.binds⟩, ?_⟩
  exact Expr.eval_binary.mpr ⟨_, _, hl.value, hr.value, apply_operator b x y⟩

theorem and_assoc_of_prec {o : Op} (h : prec o = prec Op.and) {x a b v w : Const}
    (hv : o.apply a b = some v) (hw : Op.and.apply x v = some w) :
    ∃ u, Op.and.apply x a = some u ∧ o.apply u b = some w := by
  cases o with
  | and =>
    match x, a, b, hv with
    | .bool p, .bool a, .bool b, rfl =>
      obtain rfl := Option.some.inj hw
      exact ⟨_, rfl, by simp only [Op.apply, Bool.and_assoc]⟩
    | .int x, .bool a, .bool b, rfl => exact nomatch hw
  | _ => exact nomatch h

/-- The comparisons of an option with the later ones, of which there is one at least. -/
theorem checks_spec (b : Bound) {first : Tokens τ} {x : Int} (hx : Denotes env first x)
    {options : List (Tokens τ)} {zs : List Int} (h : List.Forall₂ (Denotes env) options zs)
    (hne : options ≠ []) : ∃ e, e.tokens = checks b.operator first options ∧ e.WellFormed ∧
      e.Binds (prec Op.and) ∧ evaluate env e = some (.bool (decide (∀ z ∈ zs, b.le x z))) := by
  obtain ⟨l, rfl, hl⟩ := hx
  induction h with
  | nil => exact absurd rfl hne
  | @cons len z options zs hz hrest ih =>
    obtain ⟨r, rfl, hr⟩ := hz
    obtain ⟨hwf, hval⟩ := hl.compare hr (b := b)
    have hbinds : (Expr.binary b.operator l r).Binds (prec Op.and) := by
      have := prec_operator b
      exact (by cases b <;> decide : prec Op.and ≤ prec b.operator)
    cases hrest with
    | nil => exact ⟨.binary b.operator l r, rfl, hwf, hbinds, by simpa using hval⟩
    | @cons len' z' options zs hz' hrest =>
      obtain ⟨e, htokens, hewf, hebinds, heval⟩ := ih (List.cons_ne_nil _ _)
      refine ⟨Expr.graft (.binary b.operator l r) .and e, ?_, ?_, ?_, ?_⟩
      · rw [Expr.tokens_graft, htokens]
        rfl
      · apply Expr.wellFormed_graft hwf hbinds _ hewf
        intro o ho
        cases o <;> first | rfl | exact nomatch ho
      · exact Expr.binds_graft (Nat.le_refl _) hebinds
      · refine Expr.eval_graft (fun o ho a b v w => and_assoc_of_prec ho) hewf hebinds hval heval ?_
        simp [Op.apply]

/-- The options come down to their minimum or maximum. -/
theorem constMinMaxList_spec (b : Bound) {options : List (Tokens τ)} {zs : List Int}
    (h : List.Forall₂ (Denotes env) options zs) (hne : options ≠ []) :
    ∃ e z, e.tokens = constMinMaxList b.operator options ∧ e.WellFormed ∧ e.IsBlock ∧
      e.Binds (prec Op.add) ∧ evaluate env e = some (.int z) ∧ IsExtremum b z zs := by
  induction h with
  | nil => exact absurd rfl hne
  | @cons first x options zs hx hrest ih =>
    cases hrest with
    | nil =>
      obtain ⟨e, rfl, he⟩ := hx
      exact ⟨e, x, rfl, he.wellFormed, Expr.isBlock_of_not_startsWithIf he.start, he.binds, he.value,
        isExtremum_cons fun _ h => nomatch h⟩
    | @cons second y options zs hy hrest =>
      have hlater := List.Forall₂.cons hy hrest
      obtain ⟨c, hctokens, hcwf, -, hcval⟩ := checks_spec b hx hlater (List.cons_ne_nil _ _)
      obtain ⟨nest, z, htokens, hwf, hblock, -, hval, hz⟩ := ih (List.cons_ne_nil _ _)
      obtain ⟨t, rfl, ht⟩ := hx
      have htokens' : (Expr.ite c t nest).tokens =
          constMinMaxList b.operator (t.tokens :: second :: options) := by
        rw [Expr.tokens, hctokens, htokens]
        rfl
      have hwf' : (Expr.ite c t nest).WellFormed :=
        ⟨hcwf, ⟨ht.wellFormed, Expr.isBlock_of_not_startsWithIf ht.start⟩, hwf, hblock⟩
      have heval : evaluate env (.ite c t nest) =
          if ∀ z ∈ y :: zs, b.le x z then evaluate env t else evaluate env nest := by
        show (do if ← Const.truth (← evaluate env c) then evaluate env t else evaluate env nest) = _
        rw [hcval]
        by_cases h : ∀ z ∈ y :: zs, b.le x z <;> simp [Const.truth, h]
      by_cases hfirst : ∀ z ∈ y :: zs, b.le x z
      · rw [if_pos hfirst, ht.value] at heval
        exact ⟨_, x, htokens', hwf', trivial, trivial, heval, isExtremum_cons hfirst⟩
      · rw [if_neg hfirst, hval] at heval
        exact ⟨_, z, htokens', hwf', trivial, trivial, heval, hz.cons hfirst⟩

/-- The default counts as an option if no variant has a known length. -/
def defaults {ι : Type} (default : Nat) (known : ι → Bool) (variants : List ι) : List Int :=
  if variants.any known then [] else [(default : Int)]

theorem Bound.isExtremum_known (b : Bound) (default : Nat) (ns : List Nat) :
    IsExtremum b (b.known default ns) (if ns = [] then [(default : Int)] else ns.map Nat.cast) := by
  have hcast : ∀ m, m ∈ ns → (∀ n ∈ ns, b.le m n) → b.known default ns = m →
      IsExtremum b (b.known default ns) (ns.map Nat.cast) := by
    rintro m hm hle rfl
    refine ⟨List.mem_map_of_mem hm, fun x hx => ?_⟩
    obtain ⟨n, hn, rfl⟩ := List.mem_map.mp hx
    exact hle n hn
  split
  · rename_i hnil
    have hdefault : b.known default ns = default := by
      rw [hnil]
      cases b <;> rfl
    rw [hdefault]
    exact isExtremum_cons fun _ h => nomatch h
  · rename_i hne
    cases b with
    | min =>
      obtain ⟨m, hm⟩ := Option.isSome_iff_exists.mp (List.isSome_min?_of_ne_nil hne)
      obtain ⟨hmem, hle⟩ := List.min?_eq_some_iff.mp hm
      exact hcast m hmem (fun n hn => Int.ofNat_le.mpr (hle n hn)) (congrArg (Option.getD · default) hm)
    | max =>
      obtain ⟨m, hm⟩ := Option.isSome_iff_exists.mp (List.isSome_max?_of_ne_nil hne)
      obtain ⟨hmem, hle⟩ := List.max?_eq_some_iff.mp hm
      exact hcast m hmem (fun n hn => Int.ofNat_le.mpr (hle n hn)) (congrArg (Option.getD · default) hm)

/-- The known lengths may be replaced by their bound. -/
theorem IsExtremum.of_known {ι : Type} {b : Bound} (default : Nat) {known : ι → Bool} {g : ι → Int}
    {fixed : ι → Nat} {variants : List ι}
    (hfixed : ∀ v ∈ variants, known v = true → g v = fixed v) {z : Int}
    (hz : IsExtremum b z (b.known default ((variants.filter known).map fixed) ::
      (variants.filter fun v => !known v).map g)) :
    IsExtremum b z (defaults default known variants ++ variants.map g) := by
  have hbound := b.isExtremum_known default ((variants.filter known).map fixed)
  generalize b.known default ((variants.filter known).map fixed) = k at hz hbound
  unfold defaults
  by_cases hany : variants.any known = true
  · obtain ⟨v₀, hv₀, hknown₀⟩ := List.any_eq_true.mp hany
    have hmem₀ : fixed v₀ ∈ (variants.filter known).map fixed :=
      List.mem_map_of_mem (List.mem_filter.mpr ⟨hv₀, hknown₀⟩)
    rw [if_neg (List.ne_nil_of_mem hmem₀)] at hbound
    rw [if_pos hany, List.nil_append]
    obtain ⟨hk, hle⟩ := hbound
    refine ⟨?_, fun x hx => ?_⟩
    · rcases List.mem_cons.mp hz.1 with rfl | hz
      · obtain ⟨n, hn, hnk⟩ := List.mem_map.mp hk
        obtain ⟨v, hv, rfl⟩ := List.mem_map.mp hn
        obtain ⟨hv, hknown⟩ := List.mem_filter.mp hv
        exact List.mem_map.mpr ⟨v, hv, (hfixed v hv hknown).trans hnk⟩
      · obtain ⟨v, hv, rfl⟩ := List.mem_map.mp hz
        exact List.mem_map_of_mem (List.mem_filter.mp hv).1
    · obtain ⟨v, hv, rfl⟩ := List.mem_map.mp hx
      by_cases hknown : known v = true
      · have hmem : fixed v ∈ (variants.filter known).map fixed :=
          List.mem_map_of_mem (List.mem_filter.mpr ⟨hv, hknown⟩)
        rw [hfixed v hv hknown]
        exact Bound.le_trans (hz.2 k List.mem_cons_self) (hle _ (List.mem_map_of_mem hmem))
      · have hmem : v ∈ variants.filter fun v => !known v :=
          List.mem_filter.mpr ⟨hv, by simpa using hknown⟩
        exact hz.2 _ (List.mem_cons_of_mem _ (List.mem_map_of_mem hmem))
  · have hunknown : ∀ v ∈ variants, known v = false := by simpa using hany
    have hnil : variants.filter known = [] := by simpa using hunknown
    have hall : (variants.filter fun v => !known v) = variants :=
      List.filter_eq_self.mpr fun v hv => by rw [hunknown v hv]; rfl
    rw [hnil, List.map_nil, if_pos rfl] at hbound
    rw [hall, List.mem_singleton.mp hbound.1] at hz
    rwa [if_neg hany]

/-- The constant of an enum. -/
theorem lowestLen_spec {ι : Type} (b : Bound) (default n : Nat) {f : ι → ByteLen τ} {g : ι → Int}
    {variants : List ι} (h : ∀ v ∈ variants, (f v).Denotes env b (g v)) :
    tokensValue env (lowestLen b default (variants.map f) n) = some (.int
      (b.extremum (defaults default (fun v => ((f v).unknown b).isEmpty) variants ++
        variants.map g) + n)) := by
  have hfixed : ∀ v ∈ variants, ((f v).unknown b).isEmpty = true → g v = (f v).fixedBytes := by
    intro v hv hempty
    obtain ⟨-, hz⟩ | hz := h v hv
    · omega
    · rw [hz.ne_nil] at hempty
      exact nomatch hempty
  have hfilter : ∀ p : ByteLen τ → Bool, (variants.map f).filter p =
      (variants.filter fun v => p (f v)).map f := fun p => List.filter_map
  have hend := fun z => IsExtremum.of_known (b := b) (z := z) default hfixed
  have hoptions : List.Forall₂ (Denotes env)
      ((variants.filter fun v => !((f v).unknown b).isEmpty).map fun v => (f v).asConstLength b)
      ((variants.filter fun v => !((f v).unknown b).isEmpty).map g) := by
    rw [List.forall₂_map_left_iff, List.forall₂_map_right_iff, List.forall₂_same]
    exact fun v hv => (h v (List.mem_filter.mp hv).1).asConstLength
  unfold lowestLen
  simp only [hfilter, List.map_map, Function.comp_def]
  generalize b.known default _ = k at hend ⊢
  have hk : Denotes env [literal k] k := denotes_operand _
  split
  · rename_i hall
    have hnil : (variants.filter fun v => !((f v).unknown b).isEmpty) = [] := by simpa using hall
    have hz := hend k (by rw [hnil]; exact isExtremum_cons fun _ h => absurd h List.not_mem_nil)
    rw [hz.eq_extremum]
    show some (Const.int ((k + n : Nat) : Int)) = _
    rw [Int.natCast_add]
  · obtain ⟨e, z, htokens, hwf, -, hbinds, hval, hz⟩ :=
      constMinMaxList_spec b (.cons hk hoptions) (List.cons_ne_nil _ _)
    have hlen : (Expr.binary Op.add e (.operand (.literal n))).tokens =
        constMinMaxList b.operator ([literal k] :: (variants.filter fun v =>
          !((f v).unknown b).isEmpty).map fun v => (f v).asConstLength b) ++
          [.operator .add, literal n] := by
      rw [Expr.tokens, htokens]
      rfl
    rw [(hend z hz).eq_extremum, ← hlen, tokensValue_tokens]
    · exact Expr.eval_binary.mpr ⟨_, _, hval, rfl, rfl⟩
    · exact ⟨⟨hwf, hbinds, fun h => Bool.noConfusion h⟩, trivial, trivial⟩

/-! ## When the constants are right -/

def Bound.default (usizeMax : Nat) : Bound → Nat
  | min => usizeMax
  | max => 0

/-- The tokens of the constant. -/
def Input.constLen (usizeMax : Nat) (input : Input τ) : Bound → Tokens τ
  | .min => input.minLen usizeMax
  | .max => input.maxLen

/-- The excess makes no difference. -/
def Input.Exact (usizeMax : Nat) (env : Env τ) (b : Bound) : Input τ → Prop
  | lone v => v.excess env b = 0
  | struct fs => fieldsExcess env b fs = 0
  | enum first rest =>
    b.extremum (defaults (b.default usizeMax) (fun fs => ((fieldsLength fs).unknown b).isEmpty)
      (first :: rest) ++
        (first :: rest).map fun fs => fieldsIntended env b fs + fieldsExcess env b fs) =
    b.extremum ((first :: rest).map (fieldsIntended env b))

/-- The constant is the intended length and the excess. -/
theorem Input.exists_value (usizeMax : Nat) (env : Env τ) (input : Input τ) (b : Bound) :
    ∃ z, tokensValue env (input.constLen usizeMax b) = some (.int z) ∧
      (z = input.intended env b ↔ input.Exact usizeMax env b) := by
  have hconst : ∀ {l : ByteLen τ} {z d : Int}, l.Denotes env b (z + d) →
      ∃ z', tokensValue env (l.asConstLength b) = some (.int z') ∧ (z' = z ↔ d = 0) := by
    intro l z d h
    exact ⟨z + d, h.asConstLength.tokensValue, by omega⟩
  cases input with
  | lone v =>
    have h := hconst (v.denotes_length b)
    cases b <;> exact h
  | struct fs =>
    have h := hconst (denotes_fieldsLength b fs)
    cases b <;> exact h
  | enum first rest =>
    have h := lowestLen_spec b (b.default usizeMax) (variantLen (rest.length + 1))
      (fun fs (_ : fs ∈ first :: rest) =>
        (denotes_fieldsLength b fs : (fieldsLength fs).Denotes env b _))
    have hlen : (Input.enum first rest).constLen usizeMax b = lowestLen b (b.default usizeMax)
        ((first :: rest).map fieldsLength) (variantLen (rest.length + 1)) := by
      cases b <;> rfl
    rw [hlen, h]
    refine ⟨_, rfl, ?_⟩
    rw [Input.intended, Input.Exact]
    omega

theorem Input.evaluates_iff (usizeMax : Nat) (env : Env τ) (input : Input τ) (b : Bound) :
    tokensValue env (input.constLen usizeMax b) = some (.int (input.intended env b)) ↔
      input.Exact usizeMax env b := by
  obtain ⟨z, hz, hexact⟩ := input.exists_value usizeMax env b
  rw [hz, Option.some_inj, Const.int.injEq, hexact]

theorem apply_of_applyUsize {usizeMax : Nat} {o : Op} {a b c : Const}
    (h : o.applyUsize usizeMax a b = some c) : o.apply a b = some c := by
  unfold Op.applyUsize at h
  cases hab : o.apply a b with
  | none =>
    rw [hab] at h
    exact nomatch h
  | some d =>
    rw [hab] at h
    cases d with
    | bool p => exact h
    | int z =>
      change (if 0 ≤ z ∧ z ≤ usizeMax then some (Const.int z) else none) = some c at h
      split at h
      · exact h
      · exact nomatch h

/-- Where the compiler evaluates a constant without an overflow. -/
theorem Input.compiled_iff {usizeMax : Nat} {input : Input τ} {b : Bound} {z : Int}
    (h : (do evaluateUsize usizeMax env (← parse (input.constLen usizeMax b))) = some (.int z)) :
    z = input.intended env b ↔ input.Exact usizeMax env b := by
  have hvalue : tokensValue env (input.constLen usizeMax b) = some (.int z) := by
    obtain ⟨e, he, hval⟩ := Option.bind_eq_some_iff.mp h
    refine Option.bind_eq_some_iff.mpr ⟨e, he, ?_⟩
    exact Expr.eval_mono (fun _ _ _ _ => apply_of_applyUsize) hval
  obtain ⟨z', hz', hexact⟩ := input.exists_value usizeMax env b
  rw [hvalue, Option.some_inj, Const.int.injEq] at hz'
  rw [hz', hexact]

/-- `N + 1` -/
def oneMore : Length Number where
  expr := .binary .add (.operand (.constant "N")) (.operand (.literal 1))
  arithmetic := ⟨.inl rfl, trivial, trivial⟩
  wellFormed := ⟨⟨trivial, trivial, fun _ => trivial⟩, trivial, trivial⟩

/-- `N` is 4. -/
def numbers : Env Number := ⟨fun _ => 4, fun _ n => n.bytes⟩

/-- A struct with a `[u16; N + 1]` has 10 bytes, and the constant is 9. -/
theorem Input.not_evaluates :
    tokensValue numbers (Input.constLen (2 ^ 64 - 1) (.struct [.array .u16 oneMore]) .min) ≠
      some (.int (Input.intended numbers .min (.struct [.array .u16 oneMore]))) := by
  decide +kernel

end MiniUdp.Derive.Quote
