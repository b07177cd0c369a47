import MathMarkup.Decimal.Write
import MathMarkup.Operator

/-!
# Expressions

The tree that markup stands for. The raw text of a braced argument stays a leaf of its own, and
written parentheses stay in the tree as groups.
-/

namespace MathMarkup

inductive Expr
  | number (value : Float)
  | var (name : String)
  | arg (raw : String)
  | binary (op : BinaryOp) (left right : Expr)
  | group (inner : Expr)
  | unary (op : UnaryOp) (operand : Expr)
  deriving BEq, Repr

namespace Expr

def vars : Expr → List String
  | number _ | arg _ => []
  | var name => [name]
  | binary _ left right => left.vars ++ right.vars
  | group inner => inner.vars
  | unary _ operand => operand.vars

def text : Expr → String
  | number value => Decimal.write value
  | var name => name
  | arg raw => raw
  | binary op left right => "(" ++ left.text ++ op.symbol ++ right.text ++ ")"
  | group inner => "(" ++ inner.text ++ ")"
  | unary .sqrt operand => "sqrt(" ++ operand.text ++ ")"
  | unary .negative operand => "(-" ++ operand.text ++ ")"

end Expr
end MathMarkup
