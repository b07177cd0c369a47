import MathMarkup.Grammar.Step

/-!
# Meaning of the rules

What a rule yields when every question is answered afresh. This is the meaning of the grammar, given
by one equation for each rule. As a program it takes exponential time on nested parentheses.
-/

namespace MathMarkup.Grammar

def outcome (g : Grammar) (r : Rule) (ts : List Token) : Outcome :=
  Id.run (g.step ts r fun r' p _ => outcome g r' p.tokens).run
termination_by r.size ts

def firstOutcome {ρ : Type} (g : Grammar) (rule : ρ → Rule) (rules : List ρ) (ts : List Token) :
    Outcome :=
  Id.run (anyMatch (fun r => g.outcome (rule r) ts) rules ts)

def fullOutcome (g : Grammar) (ts : List Token) : Except Failure Expr :=
  Id.run (fullMatch (fun r => g.outcome r ts) g.rules ts)

theorem run_bind {α β : Type} (x : ExceptT Failure Id α) (f : α → ExceptT Failure Id β) :
    Id.run (x >>= f).run = Id.run x.run >>= fun a => Id.run (f a).run := by
  rw [ExceptT.run_bind, Id.run_bind]
  cases Id.run x.run <;> rfl

theorem run_lift {α : Type} (r : Except Mismatch α) :
    Id.run (liftM r : ExceptT Failure Id α).run = liftM r := by
  cases r <;> rfl

theorem outcome_number (g : Grammar) (ts : List Token) :
    g.outcome (.atom .number) ts = liftM (number ts) := by
  rw [outcome]
  rfl

theorem outcome_var (g : Grammar) (ts : List Token) :
    g.outcome (.atom .var) ts = liftM (var ts) := by
  rw [outcome]
  rfl

theorem outcome_superscript (g : Grammar) (ts : List Token) :
    g.outcome (.atom .superscript) ts = superscript ts := by
  rw [outcome]
  rfl

theorem outcome_subscript (g : Grammar) (ts : List Token) :
    g.outcome (.atom .subscript) ts = subscript ts := by
  rw [outcome]
  rfl

theorem outcome_bracketBinary (g : Grammar) (ts : List Token) :
    g.outcome (.atom .bracketBinary) ts = liftM (g.bracketBinary ts) := by
  rw [outcome]
  rfl

theorem outcome_implicitProduct (g : Grammar) (ts : List Token) :
    g.outcome (.atom .implicitProduct) ts = liftM (implicitProduct ts) := by
  rw [outcome]
  rfl

theorem outcome_parenthesized (g : Grammar) (ts : List Token) :
    g.outcome (.atom .parenthesized) ts =
      if 2 ≤ ts.length then do
        let split ← parentheses ts
        let inner ← g.fullOutcome ((ts.drop 1).take split.inside.length)
        return ⟨.group inner, split.inside.length + 2⟩
      else .error (.mismatch (.insufficientTokens .parenthesized ts.length 2)) := by
  rw [outcome, step, parenthesized]
  split
  · simp only [run_bind, run_lift]
    rfl
  · rfl

theorem outcome_unaryCommand_nil (g : Grammar) :
    g.outcome (.atom .unaryCommand) [] =
      .error (.mismatch (.insufficientTokens .unaryCommand 0 2)) := by
  rw [outcome]
  rfl

theorem outcome_unaryCommand_singleton (g : Grammar) (t : Token) :
    g.outcome (.atom .unaryCommand) [t] =
      .error (.mismatch (.insufficientTokens .unaryCommand 1 2)) := by
  rw [outcome]
  rfl

theorem outcome_unaryCommand (g : Grammar) (head next : Token) (rest : List Token) :
    g.outcome (.atom .unaryCommand) (head :: next :: rest) = do
      let op ← g.unaryOp head
      if next.kind = .argStart then
        let split ← braces (next :: rest)
        let operand ← bracedLeaf split.inside
        return ⟨.unary op operand, split.inside.length + 3⟩
      else
        let operand ← g.firstOutcome .atom g.atoms (next :: rest)
        return ⟨.unary op operand.expr, operand.taken + 1⟩ := by
  rw [outcome, step, unaryCommand, run_bind, run_lift]
  refine congrArg (Except.bind _) (funext fun op => ?_)
  split
  · simp only [run_bind, run_lift]
    rfl
  · rw [run_bind]
    rfl

theorem outcome_chain (g : Grammar) (ts : List Token) :
    g.outcome .chain ts =
      if 3 ≤ ts.length then do
        let left ← g.firstOutcome .atom g.atoms ts
        match left.rest ts with
        | operator :: _ :: _ =>
          let op ← g.binaryOp operator
          let right ← g.firstOutcome id g.operands (ts.drop (left.taken + 1))
          return ⟨.binary op left.expr right.expr, left.taken + 1 + right.taken⟩
        | short => .error (.mismatch (.insufficientTokens .chain short.length 2))
      else .error (.mismatch (.insufficientTokens .chain ts.length 3)) := by
  rw [outcome, step, chain]
  split
  · rw [run_bind]
    refine congrArg (Except.bind _) (funext fun left => ?_)
    rcases left.rest ts with _ | ⟨operator, _ | ⟨next, rest⟩⟩
    · rfl
    · rfl
    · simp only [run_bind, run_lift]
      rfl
  · rfl

end MathMarkup.Grammar
