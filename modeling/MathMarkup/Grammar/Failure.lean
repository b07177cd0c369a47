import MathMarkup.Expr
import MathMarkup.Token

/-!
# Outcomes and failures

What a rule yields, and why it does not. A mismatch leaves the tokens to other rules. A script whose
braces hold no literal ends the whole parse instead, since no rule takes it.
-/

namespace MathMarkup.Grammar

/-- The rules that ask for a number of tokens before they read any. -/
inductive Construct
  | parenthesized | bracketBinary | chain | superscript | subscript | unaryCommand
  deriving DecidableEq, Repr

def Construct.phrase : Construct → String
  | parenthesized => "parenthesized expression"
  | bracketBinary => "bracketed binary operation"
  | chain => "infix binary operation"
  | superscript => "superscript"
  | subscript => "subscript"
  | unaryCommand => "unary command"

inductive Mismatch
  | emptyInput
  | insufficientTokens (construct : Construct) (found required : Nat)
  | unexpectedToken (expected : Token.Kind) (found : Token)
  | unknownOperator (found : Token)
  | invalidNumber (found : Token)
  | unbalancedScope (closing : Token)
  | unclosedScope (opening : Token)
  | singletonRun (first : Token)
  | trailingTokens (next : Token)
  | noRuleMatched (first : Token)
  deriving DecidableEq, Repr

inductive Failure
  | mismatch (reason : Mismatch)
  | unsupportedScript (found : Token)
  deriving DecidableEq, Repr

/-- An expression and the number of tokens it was read from. -/
structure Parsed where
  expr : Expr
  taken : Nat
  deriving Repr

abbrev Outcome := Except Failure Parsed

instance : MonadLift (Except Mismatch) (Except Failure) := ⟨Except.mapError .mismatch⟩

instance {m : Type → Type} [Monad m] : MonadLift (Except Mismatch) (ExceptT Failure m) :=
  ⟨fun r => ExceptT.mk (pure (r.mapError .mismatch))⟩

def Parsed.rest (p : Parsed) (ts : List Token) : List Token := ts.drop p.taken

def quoted (t : Token) : String := s!"`{t.text}`"

def located (t : Token) : String := s!"{quoted t} at offset {t.start}"

def Mismatch.message : Mismatch → String
  | emptyInput => "empty token list"
  | insufficientTokens construct found required =>
    s!"token list of insufficient length for {construct.phrase}: {found} < {required}"
  | unexpectedToken expected found =>
    s!"expected {expected.name} but found {found.kind.name} {located found}"
  | unknownOperator found => s!"unrecognized operator {located found}"
  | invalidNumber found => s!"invalid number {located found}"
  | unbalancedScope closing => s!"unmatched closing {located closing}"
  | unclosedScope opening => s!"unclosed {located opening}"
  | singletonRun first =>
    s!"implicit multiplication needs at least two factors at offset {first.start}"
  | trailingTokens next => s!"unexpected trailing {located next}"
  | noRuleMatched first =>
    s!"failed to parse tokens starting at {quoted first} (offset {first.start})"

def Failure.message : Failure → String
  | mismatch reason => reason.message
  | unsupportedScript found =>
    s!"unsupported construct: script argument that isn't a braced literal at offset {found.start}"

end MathMarkup.Grammar
