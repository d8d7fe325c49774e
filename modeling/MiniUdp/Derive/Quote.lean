import MiniUdp.Derive.Data
import MiniUdp.Lib.Precedence

/-!
# The tokens of the length constants

The macros write `MIN_BYTE_LEN` and `MAX_BYTE_LEN` as tokens that they paste
together; what the compiler makes of them is up to the precedence of the
operators. A type inside `<…>` is a `τ` here, and so are the elements of an
array, of which only the type is printed.
-/

namespace MiniUdp.Derive.Quote

open Precedence

/-! ## Constant expressions -/

inductive Op where
  | add | sub | mul | le | ge | and
  deriving DecidableEq, Repr

instance : Operators Op where
  prec
    | .and => 1
    | .le | .ge => 2
    | .add | .sub => 3
    | .mul => 4
  chains
    | .le | .ge => false
    | .and | .add | .sub | .mul => true

/-- Which of the two constants. -/
inductive Bound where
  | min
  | max
  deriving DecidableEq, Repr

inductive Operand (τ : Type) where
  | literal (n : Nat)
  | constant (name : String)
  /-- `<ty>::MIN_BYTE_LEN` or `<ty>::MAX_BYTE_LEN` -/
  | byteLen (b : Bound) (ty : τ)
  deriving DecidableEq, Repr

abbrev Tokens (τ : Type) := List (Token Op (Operand τ))

inductive Const where
  | int (z : Int)
  | bool (b : Bool)
  deriving DecidableEq, Repr

def Op.apply : Op → Const → Const → Option Const
  | add, .int a, .int b => some (.int (a + b))
  | sub, .int a, .int b => some (.int (a - b))
  | mul, .int a, .int b => some (.int (a * b))
  | le, .int a, .int b => some (.bool (decide (a ≤ b)))
  | ge, .int a, .int b => some (.bool (decide (b ≤ a)))
  | and, .bool a, .bool b => some (.bool (a && b))
  | _, _, _ => none

/-- As the compiler evaluates it: a result that is not a `usize` is an error. -/
def Op.applyUsize (usizeMax : Nat) (o : Op) (a b : Const) : Option Const := do
  match ← o.apply a b with
  | .int z => if 0 ≤ z ∧ z ≤ usizeMax then some (.int z) else none
  | c => some c

def Const.truth : Const → Option Bool
  | bool b => some b
  | int _ => none

/-- The values of the constants a crate names. -/
structure Env (τ : Type) where
  constant : String → Nat
  byteLen : Bound → τ → Nat

variable {τ : Type}

def Env.operand (env : Env τ) : Operand τ → Nat
  | .literal n => n
  | .constant name => env.constant name
  | .byteLen b ty => env.byteLen b ty

def Env.const (env : Env τ) (a : Operand τ) : Const := .int (env.operand a)

def evaluate (env : Env τ) (e : Expr Op (Operand τ)) : Option Const :=
  e.eval Op.apply Const.truth env.const

def evaluateUsize (usizeMax : Nat) (env : Env τ) (e : Expr Op (Operand τ)) : Option Const :=
  e.eval (Op.applyUsize usizeMax) Const.truth env.const

/-! ## Array lengths -/

/-- Sums, differences and products, with parentheses where there are some. -/
def IsArithmetic : Expr Op (Operand τ) → Prop
  | .operand _ => True
  | .paren e => IsArithmetic e
  | .binary o l r => (o = .add ∨ o = .sub ∨ o = .mul) ∧ IsArithmetic l ∧ IsArithmetic r
  | .ite _ _ _ => False

/-- The length of an array type. -/
structure Length (τ : Type) where
  expr : Expr Op (Operand τ)
  arithmetic : IsArithmetic expr
  wellFormed : expr.WellFormed

/-! ## `Value` and `ByteLen` -/

inductive Value (τ : Type) where
  | emptyTuple
  | bool
  | number (n : Number)
  | string
  | cow (ty : Value τ)
  | option (ty : Value τ)
  | array (ty : τ) (length : Length τ)
  | vec (ty : Value τ)
  | delegated (ty : τ)

def literal (n : Nat) : Token Op (Operand τ) := .operand (.literal n)

structure ByteLen (τ : Type) where
  fixedBytes : Nat
  unknownMin : Tokens τ
  unknownMax : Tokens τ

namespace ByteLen

def fullyStatic (length : Nat) : ByteLen τ := ⟨length, [], []⟩

def fullyUnknown (unknownMin unknownMax : Tokens τ) : ByteLen τ := ⟨0, unknownMin, unknownMax⟩

def knownFixedUnknownLength (fixedBytes : Nat) (unknownMax : Tokens τ) : ByteLen τ :=
  ⟨fixedBytes, [], unknownMax⟩

def unknown (l : ByteLen τ) : Bound → Tokens τ
  | .min => l.unknownMin
  | .max => l.unknownMax

def asConstLength (b : Bound) (l : ByteLen τ) : Tokens τ :=
  if (l.unknown b).isEmpty then [literal l.fixedBytes]
  else literal l.fixedBytes :: .operator .add :: l.unknown b

def asConstMinLength (l : ByteLen τ) : Tokens τ := l.asConstLength .min

def asConstMaxLength (l : ByteLen τ) : Tokens τ := l.asConstLength .max

def addUnknown (a b : Tokens τ) : Tokens τ :=
  if !a.isEmpty && !b.isEmpty then a ++ .operator .add :: b else a ++ b

def add (a b : ByteLen τ) : ByteLen τ where
  fixedBytes := a.fixedBytes + b.fixedBytes
  unknownMin := addUnknown a.unknownMin b.unknownMin
  unknownMax := addUnknown a.unknownMax b.unknownMax

end ByteLen

open Quote.ByteLen

def Value.length : Value τ → ByteLen τ
  | emptyTuple => fullyStatic 0
  | bool => fullyStatic 1
  | number n => fullyStatic n.bytes
  | string => knownFixedUnknownLength 4 [literal 1020]
  | cow v => v.length
  | option v => knownFixedUnknownLength 1 v.length.asConstMaxLength
  | array ty n => fullyUnknown
    (.operand (.byteLen .min ty) :: .operator .mul :: n.expr.tokens)
    (.operand (.byteLen .max ty) :: .operator .mul :: n.expr.tokens)
  | vec v => knownFixedUnknownLength 4
    [literal 1000, .operator .mul, .paren v.length.asConstMaxLength]
  | delegated ty => fullyUnknown [.operand (.byteLen .min ty)] [.operand (.byteLen .max ty)]

/-- `Fields::length` -/
def fieldsLength (fs : List (Value τ)) : ByteLen τ :=
  fs.foldl (fun acc v => acc.add v.length) (fullyStatic 0)

/-- The comparisons of the first option with the later ones. -/
def checks (operator : Op) (first : Tokens τ) : List (Tokens τ) → Tokens τ
  | [] => []
  | [len] => first ++ .operator operator :: len
  | len :: options => first ++ .operator operator :: len ++
    .operator .and :: checks operator first options

def constMinMaxList (operator : Op) : List (Tokens τ) → Tokens τ
  | [] => []
  | [first] => first
  | first :: options => .ifKeyword :: checks operator first options ++
    [.brace first, .elseKeyword, .brace (constMinMaxList operator options)]

def Bound.operator : Bound → Op
  | min => .le
  | max => .ge

/-- The bound of numbers, `default` if there are none. -/
def Bound.known (default : Nat) : Bound → List Nat → Nat
  | min, ns => ns.min?.getD default
  | max, ns => ns.max?.getD default

def lowestLen (b : Bound) (default : Nat) (variants : List (ByteLen τ)) (variantLen : Nat) :
    Tokens τ :=
  let known := b.known default ((variants.filter fun l => (l.unknown b).isEmpty).map fixedBytes)
  if variants.all fun l => (l.unknown b).isEmpty then [literal (known + variantLen)]
  else
    let options := (variants.filter fun l => !(l.unknown b).isEmpty).map (asConstLength b)
    constMinMaxList b.operator ([literal known] :: options) ++
      [.operator .add, literal variantLen]

def lowestMinLen (usizeMax : Nat) : List (ByteLen τ) → Nat → Tokens τ := lowestLen .min usizeMax

def lowestMaxLen : List (ByteLen τ) → Nat → Tokens τ := lowestLen .max 0

/-- The bytes of the number of a variant. -/
def variantLen (variants : Nat) : Nat :=
  let variantBits := if variants ≤ 1 then 0 else Nat.log2 (variants - 1) + 1
  (variantBits + 7) / 8

/-- What the macros are called for. An enum has a variant at least. -/
inductive Input (τ : Type) where
  | lone (value : Value τ)
  | struct (fields : List (Value τ))
  | enum (first : List (Value τ)) (rest : List (List (Value τ)))

/-- The tokens of `MIN_BYTE_LEN`. -/
def Input.minLen (usizeMax : Nat) : Input τ → Tokens τ
  | lone v => v.length.asConstMinLength
  | struct fs => (fieldsLength fs).asConstMinLength
  | enum first rest =>
    lowestMinLen usizeMax ((first :: rest).map fieldsLength) (variantLen (rest.length + 1))

/-- The tokens of `MAX_BYTE_LEN`. -/
def Input.maxLen : Input τ → Tokens τ
  | lone v => v.length.asConstMaxLength
  | struct fs => (fieldsLength fs).asConstMaxLength
  | enum first rest => lowestMaxLen ((first :: rest).map fieldsLength) (variantLen (rest.length + 1))

/-! ## What the constants are meant to be -/

/-- The value of an arithmetic expression. -/
def number (env : Env τ) : Expr Op (Operand τ) → Int
  | .operand a => env.operand a
  | .paren e => number env e
  | .binary .add l r => number env l + number env r
  | .binary .sub l r => number env l - number env r
  | .binary .mul l r => number env l * number env r
  | .binary _ _ _ | .ite _ _ _ => 0

def Length.value (env : Env τ) (n : Length τ) : Int := number env n.expr

/-- The length a value has at least or at most. -/
def Value.intended (env : Env τ) : Bound → Value τ → Int
  | _, emptyTuple => 0
  | _, bool => 1
  | _, number n => n.bytes
  | .min, string => 4
  | .max, string => 4 + 1020
  | b, cow v => v.intended env b
  | .min, option _ => 1
  | .max, option v => 1 + v.intended env .max
  | b, array ty n => env.byteLen b ty * n.value env
  | .min, vec _ => 4
  | .max, vec v => 4 + 1000 * v.intended env .max
  | b, delegated ty => env.byteLen b ty

def fieldsIntended (env : Env τ) (b : Bound) (fs : List (Value τ)) : Int :=
  (fs.map (Value.intended env b)).sum

def Bound.extremum : Bound → List Int → Int
  | min, zs => zs.min?.getD 0
  | max, zs => zs.max?.getD 0

def Input.intended (env : Env τ) (b : Bound) : Input τ → Int
  | lone v => v.intended env b
  | struct fs => fieldsIntended env b fs
  | enum first rest => b.extremum ((first :: rest).map (fieldsIntended env b)) +
    variantLen (rest.length + 1)

end MiniUdp.Derive.Quote
