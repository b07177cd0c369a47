import Std.Data.HashMap
import MathMarkup.Grammar.Step

/-!
# Parsing with a memory

Rules ask about the same part of the tokens again and again. A memory keeps what was answered about
each part, known by its rule, its first position and its length, so that a parse takes time polynomial
in the number of tokens. A failure that ends the parse is never asked about twice and is not kept.
-/

namespace MathMarkup.Grammar

structure Question where
  rule : Rule
  start : Nat
  length : Nat
  deriving DecidableEq, Repr, Hashable

abbrev Memory := Std.HashMap Question (Except Mismatch Parsed)

def Memory.keep (memory : Memory) (q : Question) : Outcome → Memory
  | .ok parsed => memory.insert q (.ok parsed)
  | .error (.mismatch reason) => memory.insert q (.error reason)
  | .error (.unsupportedScript _) => memory

def answer (g : Grammar) (r : Rule) (ts : List Token) (start : Nat) : StateM Memory Outcome := do
  let q : Question := ⟨r, start, ts.length⟩
  match (← get)[q]? with
  | some kept => return kept.mapError .mismatch
  | none =>
    let outcome ← (g.step ts r fun r' p _ => answer g r' p.tokens (start + p.skip)).run
    modify (·.keep q outcome)
    return outcome
termination_by r.size ts

def apply (g : Grammar) (r : Rule) (ts : List Token) : Outcome := ((g.answer r ts 0).run ∅).1

/-- Reads a beginning of the tokens by the first rule that succeeds. -/
def parse (g : Grammar) (ts : List Token) : Outcome :=
  ((anyMatch (fun r => g.answer r ts 0) g.rules ts).run (∅ : Memory)).1

/-- Reads all tokens by the first rule that does. -/
def parseComplete (g : Grammar) (ts : List Token) : Except Failure Expr :=
  ((fullMatch (fun r => g.answer r ts 0) g.rules ts).run (∅ : Memory)).1

end MathMarkup.Grammar
