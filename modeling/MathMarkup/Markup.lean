import MathMarkup.Command.Trie
import MathMarkup.Function
import MathMarkup.Grammar.Memory
import MathMarkup.Scanner

/-!
# Markup

From a text to the expression it stands for, and on to a function of its variables.
-/

namespace MathMarkup

def Grammar.standard (implicitProducts : Bool) : Grammar :=
  ⟨Command.standardTrie.find?, implicitProducts⟩

inductive MarkupError
  | parse (failure : Grammar.Failure)
  | compile (reason : NonNumeric)
  deriving DecidableEq, Repr

def MarkupError.message : MarkupError → String
  | parse failure => failure.message
  | compile reason => reason.message

/-- The expression of a text, by the standard commands and without implicit products. -/
def parse (text : String) : Except Grammar.Failure Expr :=
  (Grammar.standard false).parseComplete (lex text)

def compile (text : String) : Except MarkupError Function := do
  let e ← (parse text).mapError .parse
  e.compile.mapError .compile

end MathMarkup
