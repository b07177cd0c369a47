/-!
# Tokens

A token names a piece of markup, keeps its text, and gives the byte offsets at which the text starts
and stops. The character that opens a token decides its kind, so a character with no kind belongs
to no token.
-/

namespace MathMarkup

inductive Token.Kind
  | command | argStart | argEnd | arg | number | var | subscript | superscript | parenLeft | parenRight
  deriving DecidableEq, Repr, Hashable

structure Token where
  kind : Token.Kind
  text : String
  start : Nat
  stop : Nat
  deriving DecidableEq, Repr, Hashable

namespace Token.Kind

def all : List Kind :=
  [command, argStart, argEnd, arg, number, var, subscript, superscript, parenLeft, parenRight]

def name : Kind → String
  | command => "Command"
  | argStart => "CommandArgStart"
  | argEnd => "CommandArgEnd"
  | arg => "Arg"
  | number => "Number"
  | var => "Var"
  | subscript => "Subscript"
  | superscript => "Superscript"
  | parenLeft => "ParenLeft"
  | parenRight => "ParenRight"

end Token.Kind

namespace Token

/-- Numbers are runs of these; where the points stand is not looked at. -/
def isNumeral (c : Char) : Bool := c.isDigit || c = '.'

def endsCommand (c : Char) : Bool := c = '\\' || c = ' ' || c = '\x7b'

def kindOf? (c : Char) : Option Kind :=
  if isNumeral c then some .number
  else if c.isLower then some .var
  else match c with
    | '\\' | '+' | '-' => some .command
    | '\x7b' => some .argStart
    | '\x7d' => some .argEnd
    | '_' => some .subscript
    | '^' => some .superscript
    | '(' => some .parenLeft
    | ')' => some .parenRight
    | _ => none

def runsOn (opener c : Char) : Bool :=
  if isNumeral opener then isNumeral c else opener = '\\' && !endsCommand c

def listing (t : Token) : String :=
  s!"{t.kind.name}\t{t.start}..{t.stop}\t{t.text}"

end Token

end MathMarkup
