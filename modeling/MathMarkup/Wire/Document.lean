import MathMarkup.Json.Read
import MathMarkup.Wire

/-!
# Documents

An expression as a JSON text. The outermost value is judged while it is read: a kind that is unknown,
or given twice, ends the reading at that place, before any later fault of the text is seen. All other
parts are judged once the outermost value is complete.
-/

namespace MathMarkup.Wire

open Json (Fault Reader MemberRule)

inductive ReadError
  | json (fault : Fault)
  | malformed (reason : Malformed)
  deriving DecidableEq, Repr

def tagName (cs : List Char) : Except Fault (Json.Reading Json cs) :=
  match h : Json.skip cs with
  | '[' :: _ | '\x7b' :: _ => .error .unfit
  | rest => do
    let scalar ← Json.scalar rest
    match scalar.value with
    | .string name =>
      if (Tag.ofName? name).isSome then
        return scalar.widen (Json.length_le_of_skip_eq h)
      else throw .unfit
    | _ => throw .unfit

/-- Brackets that may stand open inside the outermost one. -/
def innerDepth : Nat := 126

def outermost : MemberRule where
  admits seen name := if name = "type" ∧ name ∈ seen then .error .unfit else .ok ()
  value name := if name = "type" then tagName else Json.value innerDepth

def readOutermost : List Char → Except Fault (Json × List Char)
  | '[' :: cs => do
    let items ← Json.items tagName (Json.value innerDepth) cs
    return (.array items.value, items.rest)
  | '\x7b' :: cs => do
    let members ← Json.members outermost cs
    return (.object members.value, members.rest)
  | cs => do
    let scalar ← Json.scalar cs
    return (scalar.value, scalar.rest)

def read (text : String) : Except Fault Wire := do
  let (value, rest) ← readOutermost (Json.skip text.toList)
  match ofJson? value, Json.skip rest with
  | none, _ => throw .unfit
  | some _, _ :: _ => throw .malformed
  | some wire, [] => return wire

end Wire

namespace Expr

def toJson (layout : Json.Layout) (e : Expr) : Except Wire.NoWireForm String :=
  (Wire.ofExpr e).map fun wire => wire.toJson.render layout

def ofJson (text : String) : Except Wire.ReadError Expr :=
  match Wire.read text with
  | .error fault => .error (.json fault)
  | .ok wire => wire.toExpr.mapError .malformed

end Expr
end MathMarkup
