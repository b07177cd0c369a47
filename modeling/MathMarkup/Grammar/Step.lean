import MathMarkup.Grammar.Flat

/-!
# Rules

What each rule does, with its questions to other rules left open. A rule may ask a chain or an atom
about a shorter part of its tokens, and a chain may ask an atom about all of them, so that asking
comes to an end. Answering without and with a memory of earlier answers are two ways of filling in
the same questions.
-/

namespace MathMarkup.Grammar

/-- A part of a token list without gaps: `skip` tokens stand before it. -/
structure Part (whole : List Token) where
  skip : Nat
  tokens : List Token
  within : tokens <+: whole.drop skip

namespace Part

variable (ts : List Token)

def all : Part ts := ⟨0, ts, List.prefix_rfl⟩

def after (skip : Nat) : Part ts := ⟨skip, ts.drop skip, List.prefix_rfl⟩

def window (skip count : Nat) : Part ts := ⟨skip, (ts.drop skip).take count, List.take_prefix _ _⟩

end Part

/-- Grows with the number of tokens, and is larger for a chain than for an atom. -/
def Rule.size (ts : List Token) : Rule → Nat
  | atom _ => 2 * ts.length
  | chain => 2 * ts.length + 1

theorem Rule.size_le (r : Rule) (ts : List Token) : r.size ts ≤ 2 * ts.length + 1 := by
  cases r <;> simp only [Rule.size] <;> omega

theorem Rule.size_part_lt {ts : List Token} {p : Part ts} (hs : 0 < p.skip) (ht : 0 < ts.length)
    (r : Rule) : r.size p.tokens < 2 * ts.length := by
  have hr := r.size_le p.tokens
  have hp := p.within.length_le
  rw [List.length_drop] at hp
  omega

theorem size_inside_lt {ts : List Token} (h : 2 ≤ ts.length) (split : Split) (r : Rule) :
    r.size (Part.window ts 1 split.inside.length).tokens < (Rule.atom .parenthesized).size ts :=
  r.size_part_lt Nat.one_pos (Nat.lt_of_lt_of_le Nat.two_pos h)

theorem size_operand_lt (head : Token) (rest : List Token) (a : Atom) :
    (Rule.atom a).size (Part.after (head :: rest) 1).tokens <
      (Rule.atom .unaryCommand).size (head :: rest) :=
  (Rule.atom a).size_part_lt Nat.one_pos (List.length_pos_iff.mpr (List.cons_ne_nil head rest))

theorem size_left_lt (ts : List Token) (a : Atom) :
    (Rule.atom a).size (Part.all ts).tokens < Rule.chain.size ts :=
  Nat.lt_succ_self _

theorem size_right_lt {ts : List Token} (h : 3 ≤ ts.length) (left : Parsed) (r : Rule) :
    r.size (Part.after ts (left.taken + 1)).tokens < Rule.chain.size ts :=
  Nat.lt_succ_of_lt
    (r.size_part_lt (Nat.succ_pos left.taken) (Nat.lt_of_lt_of_le (Nat.succ_pos 2) h))

variable {m : Type → Type} [Monad m]

abbrev Ask (m : Type → Type) (ts : List Token) (size : Nat) :=
  (r : Rule) → (p : Part ts) → r.size p.tokens < size → m Outcome

def firstMatch {ρ : Type} (ask : ρ → m Outcome) (first : Token) : List ρ → m Outcome
  | [] => pure (.error (.mismatch (.noRuleMatched first)))
  | r :: rs => do
    match ← ask r with
    | .error (.mismatch _) => firstMatch ask first rs
    | outcome => pure outcome

def anyMatch {ρ : Type} (ask : ρ → m Outcome) (rules : List ρ) : List Token → m Outcome
  | [] => pure (.error (.mismatch .emptyInput))
  | first :: _ => firstMatch ask first rules

/-- The first rule that reads all tokens. If there is none, `otherwise` says why, which is the first
token that a rule left over as soon as one did. -/
def completeMatch {ρ : Type} (ask : ρ → m Outcome) (ts : List Token) (otherwise : Mismatch)
    (trailing : Option Token) : List ρ → m (Except Failure Expr)
  | [] => pure (.error (.mismatch ((trailing.map Mismatch.trailingTokens).getD otherwise)))
  | r :: rs => do
    match ← ask r with
    | .ok parsed =>
      match parsed.rest ts with
      | [] => pure (.ok parsed.expr)
      | next :: _ => completeMatch ask ts otherwise (trailing.or (some next)) rs
    | .error (.mismatch _) => completeMatch ask ts otherwise trailing rs
    | .error failure => pure (.error failure)

def fullMatch {ρ : Type} (ask : ρ → m Outcome) (rules : List ρ) :
    List Token → m (Except Failure Expr)
  | [] => pure (.error (.mismatch .emptyInput))
  | first :: rest => completeMatch ask (first :: rest) (.noRuleMatched first) none rules

def parenthesized (g : Grammar) (ts : List Token)
    (ask : Ask m ts ((Rule.atom .parenthesized).size ts)) : ExceptT Failure m Parsed :=
  if h : 2 ≤ ts.length then do
    let split ← parentheses ts
    let inside := Part.window ts 1 split.inside.length
    let inner ← ExceptT.mk <| fullMatch (fun r => ask r inside (size_inside_lt h split r))
      g.rules inside.tokens
    return ⟨.group inner, split.inside.length + 2⟩
  else throw (.mismatch (.insufficientTokens .parenthesized ts.length 2))

def unaryCommand (g : Grammar) : (ts : List Token) →
    Ask m ts ((Rule.atom .unaryCommand).size ts) → ExceptT Failure m Parsed
  | head :: next :: rest, ask => do
    let op ← g.unaryOp head
    if next.kind = .argStart then
      let split ← braces (next :: rest)
      let operand ← bracedLeaf split.inside
      return ⟨.unary op operand, split.inside.length + 3⟩
    else
      let tail := next :: rest
      let operand ← ExceptT.mk <| anyMatch
        (fun a => ask (.atom a) (.after (head :: tail) 1) (size_operand_lt head tail a))
        g.atoms tail
      return ⟨.unary op operand.expr, operand.taken + 1⟩
  | ts, _ => throw (.mismatch (.insufficientTokens .unaryCommand ts.length 2))

def chain (g : Grammar) (ts : List Token) (ask : Ask m ts (Rule.chain.size ts)) :
    ExceptT Failure m Parsed :=
  if h : 3 ≤ ts.length then do
    let left ← ExceptT.mk <| anyMatch
      (fun a => ask (.atom a) (.all ts) (size_left_lt ts a)) g.atoms ts
    match left.rest ts with
    | operator :: _ :: _ =>
      let op ← g.binaryOp operator
      let after := Part.after ts (left.taken + 1)
      let right ← ExceptT.mk <| anyMatch (fun r => ask r after (size_right_lt h left r))
        g.operands after.tokens
      return ⟨.binary op left.expr right.expr, left.taken + 1 + right.taken⟩
    | short => throw (.mismatch (.insufficientTokens .chain short.length 2))
  else throw (.mismatch (.insufficientTokens .chain ts.length 3))

def step (g : Grammar) (ts : List Token) :
    (r : Rule) → Ask m ts (r.size ts) → ExceptT Failure m Parsed
  | .chain, ask => g.chain ts ask
  | .atom .parenthesized, ask => g.parenthesized ts ask
  | .atom .unaryCommand, ask => g.unaryCommand ts ask
  | .atom .bracketBinary, _ => g.bracketBinary ts
  | .atom .superscript, _ => ExceptT.mk (pure (superscript ts))
  | .atom .subscript, _ => ExceptT.mk (pure (subscript ts))
  | .atom .implicitProduct, _ => implicitProduct ts
  | .atom .number, _ => number ts
  | .atom .var, _ => var ts

end MathMarkup.Grammar
