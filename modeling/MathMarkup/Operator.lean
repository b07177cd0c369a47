/-!
# Operators

The arithmetic that an expression performs, on doubles.
-/

namespace MathMarkup

inductive BinaryOp
  | add | multiply | pow | divide
  deriving DecidableEq, Repr, Hashable

inductive UnaryOp
  | sqrt | negative
  deriving DecidableEq, Repr, Hashable

namespace BinaryOp

def all : List BinaryOp := [add, multiply, pow, divide]

def symbol : BinaryOp → String
  | add => "+"
  | multiply => "*"
  | pow => "**"
  | divide => "/"

def ofSymbol? (s : String) : Option BinaryOp := all.find? (·.symbol = s)

def apply : BinaryOp → Float → Float → Float
  | add, x, y => x + y
  | multiply, x, y => x * y
  | pow, x, y => x.pow y
  | divide, x, y => x / y

theorem ofSymbol?_symbol (op : BinaryOp) : ofSymbol? op.symbol = some op := by
  cases op <;> decide

end BinaryOp

namespace UnaryOp

def name : UnaryOp → String
  | sqrt => "Sqrt"
  | negative => "Negative"

def apply : UnaryOp → Float → Float
  | sqrt, x => x.sqrt
  | negative, x => -x

end UnaryOp
end MathMarkup
