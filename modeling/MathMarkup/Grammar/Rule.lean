import MathMarkup.Command

/-!
# Rules

A grammar gives meaning to the words of the markup and says whether neighbouring factors multiply.
Its rules are tried in a fixed order, which is the order of precedence: the first rule that reads
what is asked of it wins.
-/

namespace MathMarkup

structure Grammar where
  meaning : String → Option Command
  implicitProducts : Bool

namespace Grammar

/-- The rules that may stand as an operand before an operator. -/
inductive Atom
  | parenthesized | bracketBinary | superscript | subscript | unaryCommand | implicitProduct
  | number | var
  deriving DecidableEq, Repr, Hashable

inductive Rule
  | atom (a : Atom)
  | chain
  deriving DecidableEq, Repr, Hashable

def atoms (g : Grammar) : List Atom :=
  [Atom.parenthesized, .bracketBinary, .superscript, .subscript, .unaryCommand] ++
    (if g.implicitProducts then [Atom.implicitProduct] else []) ++ [Atom.number, .var]

def rules (g : Grammar) : List Rule :=
  [Rule.atom .parenthesized, .atom .bracketBinary, .chain, .atom .superscript, .atom .subscript,
    .atom .unaryCommand] ++
    (if g.implicitProducts then [Rule.atom .implicitProduct] else []) ++
    [Rule.atom .number, .atom .var]

/-- The rules in the order in which a right operand is tried: a chain goes on as long as it can. -/
def operands (g : Grammar) : List Rule := .chain :: g.atoms.map .atom

end Grammar
end MathMarkup
