import MathMarkup.Decimal.Read
import MathMarkup.Grammar.Rule
import MathMarkup.Grammar.Scope

/-!
# Flat rules

The rules that read their tokens without asking any other rule.
-/

namespace MathMarkup.Grammar

def expect (kind : Token.Kind) (t : Token) : Except Mismatch Unit :=
  if t.kind = kind then .ok () else .error (.unexpectedToken kind t)

def numberLeaf (t : Token) : Except Mismatch Expr :=
  if t.kind = .number then
    match Decimal.read? t.text with
    | some value => .ok (.number value)
    | none => .error (.invalidNumber t)
  else .error (.unexpectedToken .number t)

def varLeaf (t : Token) : Except Mismatch Expr :=
  if t.kind = .var then .ok (.var t.text) else .error (.unexpectedToken .var t)

def argLeaf (t : Token) : Except Mismatch Expr :=
  if t.kind = .arg then .ok (.arg t.text) else .error (.unexpectedToken .arg t)

def factorLeaf (t : Token) : Except Mismatch Expr :=
  if t.kind = .var then varLeaf t else numberLeaf t

def firstLeaf (leaf : Token → Except Mismatch Expr) : List Token → Except Mismatch Parsed
  | [] => .error .emptyInput
  | first :: _ => (leaf first).map (⟨·, 1⟩)

def number (ts : List Token) : Except Mismatch Parsed := firstLeaf numberLeaf ts

def var (ts : List Token) : Except Mismatch Parsed := firstLeaf varLeaf ts

def arg (ts : List Token) : Except Mismatch Parsed := firstLeaf argLeaf ts

def bracedLeaf : List Token → Except Mismatch Expr
  | [] => .error .emptyInput
  | first :: rest =>
    match argLeaf first, rest with
    | .error reason, _ => .error reason
    | .ok expr, [] => .ok expr
    | .ok _, next :: _ => .error (.trailingTokens next)

def binaryOp (g : Grammar) (t : Token) : Except Mismatch BinaryOp :=
  match g.meaning t.text with
  | some (.binary op) =>
    if t.kind = .command ∨ t.kind = .superscript then .ok op else .error (.unknownOperator t)
  | _ => .error (.unknownOperator t)

def unaryOp (g : Grammar) (t : Token) : Except Mismatch UnaryOp :=
  match g.meaning t.text with
  | some (.unary op) => if t.kind = .command then .ok op else .error (.unknownOperator t)
  | _ => .error (.unknownOperator t)

def bracketBinary (g : Grammar) : List Token → Except Mismatch Parsed
  | [] => .error (.insufficientTokens .bracketBinary 0 1)
  | head :: rest => do
    let op ← g.binaryOp head
    let first ← braces rest
    let second ← braces first.remainder
    let left ← bracedLeaf first.inside
    let right ← bracedLeaf second.inside
    return ⟨.binary op left right, first.inside.length + second.inside.length + 5⟩

/-- A variable, a marker and a braced literal. Once the opening brace stands behind the marker, no
other rule can read the tokens. -/
def script (construct : Construct) (marker : Token.Kind) (build : String → String → Expr) :
    List Token → Outcome
  | base :: mark :: opener :: raw :: closer :: _ => do
    expect .var base
    expect marker mark
    expect .argStart opener
    if raw.kind = .arg ∧ closer.kind = .argEnd then
      return ⟨build base.text raw.text, 5⟩
    else throw (.unsupportedScript raw)
  | ts => .error (.mismatch (.insufficientTokens construct ts.length 5))

def superscript (ts : List Token) : Outcome :=
  script .superscript .superscript (fun base raw => .binary .pow (.var base) (.arg raw)) ts

def subscript (ts : List Token) : Outcome :=
  script .subscript .subscript (fun base raw => .var (base ++ raw)) ts

/-- The product of a run of factors, folded to the right. The last factor is read first. -/
def product : Token → List Token → Except Mismatch Expr
  | t, [] => factorLeaf t
  | t, next :: ts => do
    let right ← product next ts
    let left ← factorLeaf t
    return .binary .multiply left right

def isFactor (t : Token) : Bool := t.kind = .number || t.kind = .var

def implicitProduct : List Token → Except Mismatch Parsed
  | [] => .error .emptyInput
  | first :: rest =>
    match (run isFactor (first :: rest)).inside with
    | t :: next :: ts => (product t (next :: ts)).map (⟨·, ts.length + 2⟩)
    | _ => .error (.singletonRun first)

end MathMarkup.Grammar
