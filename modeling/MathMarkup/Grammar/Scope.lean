import MathMarkup.Grammar.Failure

/-!
# Scopes and runs

Cutting a token list at a matching delimiter, or where a property first fails.
-/

namespace MathMarkup.Grammar

structure Split where
  inside : List Token
  remainder : List Token
  deriving DecidableEq, Repr

def run (p : Token → Bool) (ts : List Token) : Split := ⟨ts.takeWhile p, ts.dropWhile p⟩

/-- Looks for the closing token that brings the depth back to zero, from within `depth + 1` scopes. -/
def closeScope (opener closer : Token.Kind) : Nat → List Token → Option Split
  | _, [] => none
  | depth, t :: ts =>
    if t.kind = opener then (closeScope opener closer (depth + 1) ts).map (keep t)
    else if t.kind = closer then
      match depth with
      | 0 => some ⟨[], ts⟩
      | depth + 1 => (closeScope opener closer depth ts).map (keep t)
    else (closeScope opener closer depth ts).map (keep t)
where
  keep (t : Token) (s : Split) : Split := { s with inside := t :: s.inside }

def balancedScope (opener closer : Token.Kind) : List Token → Except Mismatch Split
  | [] => .error .emptyInput
  | first :: rest =>
    if first.kind = closer then .error (.unbalancedScope first)
    else if first.kind ≠ opener then .error (.unexpectedToken opener first)
    else match closeScope opener closer 0 rest with
      | some split => .ok split
      | none => .error (.unclosedScope first)

def braces (ts : List Token) : Except Mismatch Split := balancedScope .argStart .argEnd ts

def parentheses (ts : List Token) : Except Mismatch Split := balancedScope .parenLeft .parenRight ts

end MathMarkup.Grammar
