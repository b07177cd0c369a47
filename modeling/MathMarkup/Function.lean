import MathMarkup.Decimal.Read
import MathMarkup.Expr
import MathMarkup.Text

/-!
# Functions

An expression as a function of its variable leaves. Each occurrence of a variable is a parameter of
its own, numbered from left to right, and the formula of a function with `n` parameters has its slots
in `Fin n`, so that it can only read one of `n` values.
-/

namespace MathMarkup

inductive Formula (σ : Type)
  | constant (value : Float)
  | slot (index : σ)
  | binary (op : BinaryOp) (left right : Formula σ)
  | unary (op : UnaryOp) (operand : Formula σ)
  deriving Repr

structure Function where
  params : List String
  formula : Formula (Fin params.length)
  source : String

structure NonNumeric where
  raw : String
  deriving DecidableEq, Repr

inductive CallError
  | arity (expected found : Nat)
  | unbound (name : String)
  deriving DecidableEq, Repr

def NonNumeric.message (e : NonNumeric) : String :=
  s!"unsupported construct: non-numeric argument `{e.raw}`"

def CallError.message : CallError → String
  | arity expected found => s!"expected {expected} arguments, got {found}"
  | unbound name => s!"no value bound for variable `{name}`"

def Formula.eval {σ : Type} (values : σ → Float) : Formula σ → Float
  | constant value => value
  | slot index => values index
  | binary op left right => op.apply (left.eval values) (right.eval values)
  | unary op operand => op.apply (operand.eval values)

/-- An argument reads as a number in the shape that number tokens have: digits and points only. -/
def argument? (raw : String) : Option Float :=
  let cs := (Text.trim raw).toList
  if cs.all (fun c => c.isDigit || c = '.') && cs.any Char.isDigit then
    Decimal.read? (String.ofList cs)
  else none

namespace Expr

/-- The formula of an expression whose first variable has slot `first`. -/
def formula (n : Nat) : (e : Expr) → (first : Nat) → first + e.vars.length ≤ n →
    Except NonNumeric (Formula (Fin n))
  | number value, _, _ => .ok (.constant value)
  | var _, first, h => .ok (.slot ⟨first, h⟩)
  | arg raw, _, _ =>
    match argument? raw with
    | some value => .ok (.constant value)
    | none => .error ⟨raw⟩
  | binary op left right, first, h => do
    have hv : first + (left.vars.length + right.vars.length) ≤ n := by simpa [vars] using h
    let l ← left.formula n first (by omega)
    let r ← right.formula n (first + left.vars.length) (by omega)
    return .binary op l r
  | group inner, first, h => inner.formula n first h
  | unary op operand, first, h => do
    let f ← operand.formula n first h
    return .unary op f

def compile (e : Expr) : Except NonNumeric Function := do
  let f ← e.formula e.vars.length 0 (by omega)
  return ⟨e.vars, f, e.text⟩

end Expr

namespace Function

def arity (f : Function) : Nat := f.params.length

def display (f : Function) : String := "|" ++ ", ".intercalate f.params ++ "| " ++ f.source

def inspect (f : Function) : String :=
  "Function \x7b params: [" ++ ", ".intercalate (f.params.map Text.quote) ++ "], source: " ++
    Text.quote f.source ++ ", .. \x7d"

def eval (f : Function) (args : List Float) (h : args.length = f.params.length) : Float :=
  f.formula.eval fun i => args[i]

def call (f : Function) (args : List Float) : Except CallError Float :=
  if h : args.length = f.params.length then .ok (f.eval args h)
  else .error (.arity f.arity args.length)

/-- What each name stands for. No more and no fewer values come back than there are names. -/
def lookupAll (lookup : String → Option Float) :
    (names : List String) → Except CallError { args : List Float // args.length = names.length }
  | [] => .ok ⟨[], rfl⟩
  | name :: names =>
    match lookup name with
    | none => .error (.unbound name)
    | some value => do
      let args ← lookupAll lookup names
      return ⟨value :: args.1, congrArg Nat.succ args.2⟩

def callWith (f : Function) (lookup : String → Option Float) : Except CallError Float := do
  let args ← lookupAll lookup f.params
  return f.eval args.1 args.2

end Function
end MathMarkup
