import Mathlib.Tactic.Common
import Mathlib.Data.List.Basic

/-!
# Operator precedence

Token sequences of binary operators, parentheses and `if … else …`, and the
expressions they are read as. Operators are left-associative by their
precedence, and some do not chain. Reading the tokens of a well-formed
expression gives it back (`parse_tokens`), so that pasting token sequences
together can be understood as pasting expressions (`graft`).
-/

namespace MiniUdp.Precedence

class Operators (ω : Type) where
  prec : ω → Nat
  /-- `a o b o c` is `(a o b) o c`; otherwise it is not an expression. -/
  chains : ω → Bool

inductive Token (ω α : Type) where
  | operand (a : α)
  | operator (o : ω)
  | ifKeyword
  | elseKeyword
  | paren (ts : List (Token ω α))
  | brace (ts : List (Token ω α))

inductive Expr (ω α : Type) where
  | operand (a : α)
  | paren (e : Expr ω α)
  | binary (o : ω) (l r : Expr ω α)
  | ite (c t e : Expr ω α)
  deriving DecidableEq, Repr

variable {ω α β : Type}

namespace Expr

def tokens : Expr ω α → List (Token ω α)
  | operand a => [.operand a]
  | paren e => [.paren e.tokens]
  | binary o l r => l.tokens ++ .operator o :: r.tokens
  | ite c t e => .ifKeyword :: c.tokens ++ [.brace t.tokens, .elseKeyword, .brace e.tokens]

def startsWithIf : Expr ω α → Bool
  | ite _ _ _ => true
  | binary _ l _ => l.startsWithIf
  | operand _ | paren _ => false

/-- An `if` at the start of a block is a statement, and ends there. -/
def IsBlock : Expr ω α → Prop
  | ite _ _ _ => True
  | binary _ l _ => l.startsWithIf = false
  | operand _ | paren _ => True

instance : (e : Expr ω α) → Decidable e.IsBlock
  | ite _ _ _ | operand _ | paren _ => inferInstanceAs (Decidable True)
  | binary _ l _ => inferInstanceAs (Decidable (l.startsWithIf = false))

theorem isBlock_of_not_startsWithIf {e : Expr ω α} (h : e.startsWithIf = false) : e.IsBlock := by
  cases e with
  | binary o l r => exact h
  | _ => trivial

end Expr

section Parse

variable [Operators ω]

open Operators

/-! ## Reading tokens -/

/-- What is left of a group once its parts are read. -/
inductive Item (ω α : Type) where
  | operand (e : Expr ω α)
  | operator (o : ω)
  | block (e : Expr ω α)
  | elseKeyword

/-- Applies what is pending to the left of `e` and binds at least as strongly as `bound`. -/
def reduce (bound : Nat) : List (Expr ω α × ω) → Expr ω α → List (Expr ω α × ω) × Expr ω α
  | [], e => ([], e)
  | (l, o) :: pending, e =>
    if bound ≤ prec o then reduce bound pending (.binary o l e) else ((l, o) :: pending, e)

/-- `e` is an operation as strong as `o`. -/
def Expr.isLevel (o : ω) : Expr ω α → Bool
  | .binary o' _ _ => prec o' == prec o
  | _ => false

/-- Reads operands and operators in turn; `cur` is the operand read last. -/
def run : List (Expr ω α × ω) → Option (Expr ω α) → List (Item ω α) → Option (Expr ω α)
  | pending, none, .operand e :: items => run pending (some e) items
  | pending, some e, [] => some (reduce 0 pending e).2
  | pending, some e, .operator o :: items =>
    let (pending', l) := reduce (prec o) pending e
    if !chains o && l.isLevel o then none else run ((l, o) :: pending') none items
  | _, _, _ => none

def resolve (items : List (Item ω α)) : Option (Expr ω α) := run [] none items

/-- The items before the first block, and those from it on. -/
def splitAtBlock : List (Item ω α) → List (Item ω α) × List (Item ω α)
  | [] => ([], [])
  | .block e :: items => ([], .block e :: items)
  | item :: items => let (before, rest) := splitAtBlock items; (item :: before, rest)

/-- What is read after an `if`. -/
def foldIf (items : List (Item ω α)) : Option (List (Item ω α)) :=
  match splitAtBlock items with
  | (condition, .block t :: .elseKeyword :: .block e :: rest) =>
    (resolve condition).map fun c => .operand (.ite c t e) :: rest
  | _ => none

mutual

/-- Puts the token before the items right of it. -/
def Token.read : Token ω α → List (Item ω α) → Option (List (Item ω α))
  | .operand a, items => some (.operand (.operand a) :: items)
  | .operator o, items => some (.operator o :: items)
  | .ifKeyword, items => foldIf items
  | .elseKeyword, items => some (.elseKeyword :: items)
  | .paren ts, items => do
    let e ← resolve (← readAll ts [])
    some (.operand (.paren e) :: items)
  | .brace ts, items => do
    let e ← resolve (← readAll ts [])
    if e.IsBlock then some (.block e :: items) else none

def readAll : List (Token ω α) → List (Item ω α) → Option (List (Item ω α))
  | [], items => some items
  | t :: ts, items => do t.read (← readAll ts items)

end

def parse (ts : List (Token ω α)) : Option (Expr ω α) := do resolve (← readAll ts [])

/-! ## Well-formed expressions -/

namespace Expr

/-- The operation `e`, if it is one, binds at least as strongly as `bound`. -/
def Binds (bound : Nat) : Expr ω α → Prop
  | binary o _ _ => bound ≤ prec o
  | operand _ | paren _ | ite _ _ _ => True

/-- There are parentheses wherever the tokens would be read in another way without them. -/
def WellFormed : Expr ω α → Prop
  | operand _ => True
  | paren e => e.WellFormed
  | binary o l r => (l.WellFormed ∧ l.Binds (prec o) ∧ (chains o = false → l.Binds (prec o + 1))) ∧
    r.WellFormed ∧ r.Binds (prec o + 1)
  | ite c t e => c.WellFormed ∧ (t.WellFormed ∧ t.IsBlock) ∧ e.WellFormed ∧ e.IsBlock

theorem Binds.mono {m n : Nat} {e : Expr ω α} (h : e.Binds n) (hmn : m ≤ n) : e.Binds m := by
  cases e with
  | binary o l r => exact Nat.le_trans hmn h
  | _ => trivial

theorem not_isLevel_of_binds {o : ω} {e : Expr ω α} (h : e.Binds (prec o + 1)) :
    e.isLevel o = false := by
  cases e with
  | binary o' l r =>
    unfold Binds at h
    unfold isLevel
    rw [beq_eq_false_iff_ne]
    omega
  | _ => rfl

/-- The items of the tokens of `e`. -/
def items : Expr ω α → List (Item ω α)
  | binary o l r => l.items ++ .operator o :: r.items
  | e => [.operand e]

end Expr

open Precedence.Expr

/-! ## Reading a well-formed expression -/

/-- The operators of `pending` bind more weakly than `e`. -/
def Weaker (pending : List (Expr ω α × ω)) (e : Expr ω α) : Prop :=
  ∀ lo ∈ pending, e.Binds (prec lo.2 + 1)

theorem reduce_of_lt {bound : Nat} {pending : List (Expr ω α × ω)}
    (h : ∀ lo ∈ pending, prec lo.2 < bound) (e : Expr ω α) :
    reduce bound pending e = (pending, e) := by
  cases pending with
  | nil => rfl
  | cons lo pending =>
    have hlo := h lo List.mem_cons_self
    rw [reduce, if_neg (Nat.not_le.mpr hlo)]

/-- The first item, if there is one, is an operator that binds no more strongly than `e`. -/
def Follows (e : Expr ω α) : List (Item ω α) → Prop
  | [] => True
  | .operator o :: _ => e.Binds (prec o)
  | _ => False

/-- An operation may be applied as soon as what follows binds no more strongly. -/
theorem run_binary (pending : List (Expr ω α × ω)) {o : ω} {l r : Expr ω α} {rest : List (Item ω α)}
    (h : Follows (.binary o l r) rest) :
    run ((l, o) :: pending) (some r) rest = run pending (some (.binary o l r)) rest := by
  match rest, h with
  | [], _ =>
    unfold run
    rw [reduce, if_pos (Nat.zero_le _)]
  | .operator o' :: rest, h =>
    unfold run
    rw [reduce, if_pos (show prec o' ≤ prec o from h)]

/-- The items of a well-formed expression are read as it, whatever is pending and follows. -/
theorem run_items {e : Expr ω α} (hwf : e.WellFormed) {pending : List (Expr ω α × ω)}
    {rest : List (Item ω α)} (hpending : Weaker pending e) (hrest : Follows e rest) :
    run pending none (e.items ++ rest) = run pending (some e) rest := by
  induction e generalizing pending rest with
  | binary o l r ihl ihr =>
    obtain ⟨⟨hl, hlo, hchain⟩, hr, hro⟩ := hwf
    have hlt : ∀ lo ∈ pending, prec lo.2 < prec o := hpending
    have hleft : Weaker pending l := fun lo h => hlo.mono (hlt lo h)
    have hright : Weaker ((l, o) :: pending) r := by
      intro lo h
      rcases List.mem_cons.mp h with rfl | h
      · exact hro
      · exact hro.mono (Nat.le_succ_of_le (hlt lo h))
    have hfollows : Follows r rest := by
      match rest, hrest with
      | [], _ => trivial
      | .operator o' :: rest, h => exact hro.mono (Nat.le_succ_of_le h)
    have hfirst : Follows l (.operator o :: (r.items ++ rest)) := hlo
    have hno : (!chains o && l.isLevel o) = false := by
      cases hc : chains o with
      | true => rfl
      | false => exact not_isLevel_of_binds (hchain hc)
    rw [items, List.append_assoc, List.cons_append, ihl hl hleft hfirst, run,
      reduce_of_lt hlt]
    simp only [hno]
    rw [if_neg Bool.false_ne_true, ihr hr hright hfollows, run_binary pending hrest]
  | operand a => rfl
  | paren e => rfl
  | ite c t e => rfl

theorem resolve_items {e : Expr ω α} (h : e.WellFormed) : resolve e.items = some e := by
  have hpending : Weaker [] e := fun _ h => (nomatch h)
  have hrest : Follows e [] := trivial
  have hrun := run_items h hpending hrest
  rw [List.append_nil] at hrun
  exact hrun

omit [Operators ω] in
theorem splitAtBlock_items (e : Expr ω α) (items : List (Item ω α)) :
    splitAtBlock (e.items ++ items) = (e.items ++ (splitAtBlock items).1, (splitAtBlock items).2) := by
  induction e generalizing items with
  | binary o l r ihl ihr =>
    rw [Expr.items, List.append_assoc, List.cons_append, ihl, splitAtBlock, ihr]
    · simp
    · exact fun _ h => (nomatch h)
  | operand a => rfl
  | paren e => rfl
  | ite c t e => rfl

theorem foldIf_items {c : Expr ω α} (h : c.WellFormed) (t e : Expr ω α) (rest : List (Item ω α)) :
    foldIf (c.items ++ .block t :: .elseKeyword :: .block e :: rest) =
      some (.operand (.ite c t e) :: rest) := by
  unfold foldIf
  rw [splitAtBlock_items]
  simp only [splitAtBlock, List.append_nil]
  rw [resolve_items h]
  rfl

theorem readAll_append (ts us : List (Token ω α)) (items : List (Item ω α)) :
    readAll (ts ++ us) items = (readAll us items).bind (readAll ts) := by
  induction ts with
  | nil =>
    rw [List.nil_append]
    cases readAll us items <;> rfl
  | cons t ts ih =>
    rw [List.cons_append, readAll, ih]
    cases readAll us items <;> simp [readAll]

theorem parse_of_readAll {e : Expr ω α} (h : e.WellFormed)
    (hread : readAll e.tokens [] = some (e.items ++ [])) : parse e.tokens = some e := by
  unfold parse
  rw [hread, List.append_nil]
  exact resolve_items h

theorem read_paren (ts : List (Token ω α)) (items : List (Item ω α)) :
    (Token.paren ts).read items = (parse ts).map fun e => .operand (.paren e) :: items := by
  unfold parse
  rw [Token.read]
  cases readAll ts [] with
  | none => rfl
  | some group => exact (Option.map_eq_bind ..).symm

theorem read_brace {e : Expr ω α} (hb : e.IsBlock) (hp : parse e.tokens = some e)
    (items : List (Item ω α)) : (Token.brace e.tokens).read items = some (.block e :: items) := by
  unfold parse at hp
  rw [Token.read]
  cases hr : readAll e.tokens [] with
  | none =>
    rw [hr] at hp
    exact nomatch hp
  | some group =>
    rw [hr] at hp
    change resolve group = some e at hp
    simp only [Option.bind_eq_bind, Option.bind_some, hp]
    exact if_pos hb

/-- The tokens of `e` are read as its items, whatever follows. -/
theorem readAll_tokens {e : Expr ω α} (h : e.WellFormed) (rest : List (Item ω α)) :
    readAll e.tokens rest = some (e.items ++ rest) := by
  induction e generalizing rest with
  | operand a => rfl
  | paren e ih =>
    have he : e.WellFormed := h
    rw [tokens, readAll, readAll]
    show (Token.paren e.tokens).read rest = _
    rw [read_paren, parse_of_readAll he (ih he [])]
    rfl
  | binary o l r ihl ihr =>
    obtain ⟨⟨hl, -⟩, hr, -⟩ := h
    rw [tokens, readAll_append, readAll, ihr hr]
    show readAll l.tokens (.operator o :: (r.items ++ rest)) = _
    rw [ihl hl, items, List.append_assoc, List.cons_append]
  | ite c t e ihc iht ihe =>
    obtain ⟨hc, ⟨ht, htb⟩, he, heb⟩ := h
    have ht' := parse_of_readAll ht (iht ht [])
    have he' := parse_of_readAll he (ihe he [])
    rw [tokens, List.cons_append, readAll, readAll_append]
    simp only [readAll, Option.bind_eq_bind, Option.bind_some]
    rw [read_brace heb he', Option.bind_some, Token.read, Option.bind_some, read_brace htb ht',
      Option.bind_some, ihc hc, Option.bind_some, Token.read, foldIf_items hc]
    rfl

theorem parse_tokens {e : Expr ω α} (h : e.WellFormed) : parse e.tokens = some e :=
  parse_of_readAll h (readAll_tokens h [])

/-! ## Pasting -/

namespace Expr

/-- `l o` in front of `e` as the tokens are read: it joins the leftmost operand of the operations
of `e` that are not stronger than `o`. -/
def graft (l : Expr ω α) (o : ω) : Expr ω α → Expr ω α
  | binary o' a b =>
    if prec o' ≤ prec o then binary o' (graft l o a) b else binary o l (binary o' a b)
  | e => binary o l e

variable {l e : Expr ω α} {o : ω}

theorem tokens_graft : (graft l o e).tokens = l.tokens ++ .operator o :: e.tokens := by
  induction e with
  | binary o' a b iha _ =>
    unfold graft
    split
    · rw [tokens, iha, tokens, List.append_assoc, List.cons_append]
    · rfl
  | operand a => rfl
  | paren e => rfl
  | ite c t e => rfl

theorem startsWithIf_graft : (graft l o e).startsWithIf = l.startsWithIf := by
  induction e with
  | binary o' a b iha _ =>
    unfold graft
    split
    · exact iha
    · rfl
  | operand a => rfl
  | paren e => rfl
  | ite c t e => rfl

theorem binds_graft {n : Nat} (ho : n ≤ prec o) (he : e.Binds n) : (graft l o e).Binds n := by
  cases e with
  | binary o' a b =>
    unfold graft
    split
    · exact he
    · exact ho
  | operand a => exact ho
  | paren e => exact ho
  | ite c t e => exact ho

theorem wellFormed_graft (hl : l.WellFormed) (hlo : l.Binds (prec o))
    (hchains : ∀ o' : ω, prec o' = prec o → chains o' = true) (he : e.WellFormed) :
    (graft l o e).WellFormed := by
  have hleft : l.WellFormed ∧ l.Binds (prec o) ∧ (chains o = false → l.Binds (prec o + 1)) := by
    refine ⟨hl, hlo, fun h => ?_⟩
    rw [hchains o rfl] at h
    exact nomatch h
  induction e with
  | binary o' a b iha _ =>
    obtain ⟨⟨ha, hao, hchain⟩, hb⟩ := he
    unfold graft
    split
    · rename_i hle
      refine ⟨⟨iha ha, binds_graft hle hao, fun h => ?_⟩, hb⟩
      have hne : prec o' ≠ prec o := by
        intro heq
        rw [hchains o' heq] at h
        exact nomatch h
      exact binds_graft (by omega) (hchain h)
    · rename_i hlt
      exact ⟨hleft, ⟨⟨ha, hao, hchain⟩, hb⟩, Nat.lt_of_not_le hlt⟩
  | operand a => exact ⟨hleft, he, trivial⟩
  | paren e => exact ⟨hleft, he, trivial⟩
  | ite c t e => exact ⟨hleft, he, trivial⟩

end Expr

end Parse

/-! ## Evaluation -/

section Eval

variable {ν : Type} (apply : ω → ν → ν → Option ν) (truth : ν → Option Bool) (env : α → ν)

def Expr.eval : Expr ω α → Option ν
  | .operand a => some (env a)
  | .paren e => e.eval
  | .binary o l r => do apply o (← l.eval) (← r.eval)
  | .ite c t e => do if ← truth (← c.eval) then t.eval else e.eval

variable {apply truth env}

theorem Expr.eval_binary {o : ω} {l r : Expr ω α} {w : ν} :
    (binary o l r).eval apply truth env = some w ↔ ∃ x y, l.eval apply truth env = some x ∧
      r.eval apply truth env = some y ∧ apply o x y = some w := by
  simp [eval, Option.bind_eq_some_iff]

/-- Evaluation with fewer defined operations agrees where it is defined. -/
theorem Expr.eval_mono {apply' : ω → ν → ν → Option ν}
    (h : ∀ o x y w, apply' o x y = some w → apply o x y = some w) {e : Expr ω α} {w : ν}
    (he : e.eval apply' truth env = some w) : e.eval apply truth env = some w := by
  induction e generalizing w with
  | operand a => exact he
  | paren e ih => exact ih he
  | binary o l r ihl ihr =>
    obtain ⟨x, y, hx, hy, hw⟩ := eval_binary.mp he
    exact eval_binary.mpr ⟨x, y, ihl hx, ihr hy, h o x y w hw⟩
  | ite c t e ihc iht ihe =>
    simp only [eval, Option.bind_eq_bind, Option.bind_eq_some_iff] at he ⊢
    obtain ⟨x, hx, b, hb, hw⟩ := he
    refine ⟨x, ihc hx, b, hb, ?_⟩
    cases b with
    | true => exact iht hw
    | false => exact ihe hw

variable [Operators ω]

open Operators

/-- If `o` is associative with the operators of its level, what is pasted is applied to the value. -/
theorem Expr.eval_graft {l e : Expr ω α} {o : ω} {x v w : ν}
    (hassoc : ∀ o', prec o' = prec o → ∀ a b v w, apply o' a b = some v → apply o x v = some w →
      ∃ u, apply o x a = some u ∧ apply o' u b = some w)
    (hwf : e.WellFormed) (hbinds : e.Binds (prec o)) (hl : l.eval apply truth env = some x)
    (he : e.eval apply truth env = some v) (hw : apply o x v = some w) :
    (graft l o e).eval apply truth env = some w := by
  induction e generalizing v w with
  | binary o' a b iha _ =>
    obtain ⟨⟨ha, hao, -⟩, -⟩ := hwf
    unfold graft
    split
    · rename_i hle
      have hprec : prec o' = prec o := Nat.le_antisymm hle hbinds
      obtain ⟨y, z, hy, hz, hv⟩ := eval_binary.mp he
      obtain ⟨u, hu, hw⟩ := hassoc o' hprec y z v w hv hw
      exact eval_binary.mpr ⟨u, z, iha ha (hprec ▸ hao) hy hu, hz, hw⟩
    · exact eval_binary.mpr ⟨x, v, hl, he, hw⟩
  | operand a => exact eval_binary.mpr ⟨x, v, hl, he, hw⟩
  | paren e => exact eval_binary.mpr ⟨x, v, hl, he, hw⟩
  | ite c t e => exact eval_binary.mpr ⟨x, v, hl, he, hw⟩

end Eval

end MiniUdp.Precedence
