import MathMarkup.Decimal.Read
import MathMarkup.Expr
import MathMarkup.Json

/-!
# Wire form

The form in which an expression travels: each node names its kind, and numbers are decimal text.
Unary operators have no wire form. A value that comes in may give a node as an object with the fields
in any order, or as an array with the fields in their own order.
-/

namespace MathMarkup

inductive Wire
  | number (text : String)
  | var (name : String)
  | arg (value : String)
  | binary (op : BinaryOp) (left right : Wire)
  | expression (children : List Wire)
  deriving Repr

namespace Wire

inductive Tag
  | number | var | arg | binary | expression
  deriving DecidableEq, Repr

namespace Tag

def all : List Tag := [number, var, arg, binary, expression]

def name : Tag → String
  | number => "ASTNumber"
  | var => "ASTVar"
  | arg => "ASTArg"
  | binary => "ASTBinaryOp"
  | expression => "ASTExpression"

def fields : Tag → List String
  | number => ["number"]
  | var => ["name"]
  | arg => ["value"]
  | binary => ["op", "left_arg", "right_arg"]
  | expression => ["children"]

def ofName? (name : String) : Option Tag := all.find? (·.name = name)

/-- A kind is known by its name or by its number in the order of all kinds. -/
def ofJson? : Json → Option Tag
  | .string name => ofName? name
  | .number literal => all[["0", "1", "2", "3", "4"].idxOf literal]?
  | _ => none

theorem ofName?_name (t : Tag) : ofName? t.name = some t := by
  cases t <;> decide

end Tag

/-! ## Expressions -/

/-- An expression with a unary operator has no wire form. -/
structure NoWireForm where
  op : UnaryOp
  deriving DecidableEq, Repr

inductive Malformed
  | badNumber (text : String)
  | childCount (found : Nat)
  deriving DecidableEq, Repr

def NoWireForm.message (e : NoWireForm) : String :=
  s!"unsupported construct: serializing unary command {e.op.name}"

def Malformed.message : Malformed → String
  | badNumber text => s!"malformed node dict: bad number `{text}`"
  | childCount found => s!"malformed node dict: expression with {found} children"

def ofExpr : Expr → Except NoWireForm Wire
  | .number value => .ok (.number (Decimal.write value))
  | .var name => .ok (.var name)
  | .arg raw => .ok (.arg raw)
  | .binary op left right => do
    let l ← ofExpr left
    let r ← ofExpr right
    return .binary op l r
  | .group inner => do
    let child ← ofExpr inner
    return .expression [child]
  | .unary op _ => .error ⟨op⟩

def toExpr : Wire → Except Malformed Expr
  | .number text =>
    match Decimal.read? text with
    | some value => .ok (.number value)
    | none => .error (.badNumber text)
  | .var name => .ok (.var name)
  | .arg value => .ok (.arg value)
  | .binary op left right => do
    let l ← left.toExpr
    let r ← right.toExpr
    return .binary op l r
  | .expression [child] => .group <$> child.toExpr
  | .expression children => .error (.childCount children.length)

/-! ## Values -/

def object (tag : Tag) (values : List Json) : Json :=
  .object (("type", .string tag.name) :: tag.fields.zip values)

def toJson : Wire → Json
  | .number text => object .number [.string text]
  | .var name => object .var [.string name]
  | .arg value => object .arg [.string value]
  | .binary op left right => object .binary [.string op.symbol, left.toJson, right.toJson]
  | .expression children => object .expression [.array (children.map toJson)]

def field? (members : List (String × Json)) (name : String) : Option Json :=
  match members.filter (·.1 = name) with
  | [(_, value)] => some value
  -- There is no such member, or more than one.
  | _ => none

def values? (members : List (String × Json)) : List String → Option (List Json)
  | [] => some []
  | name :: names => do
    let value ← field? members name
    let values ← values? members names
    return value :: values

/-- An operator is its symbol, or an object whose only member has the symbol as its name and nothing
as its value. -/
def opOfJson? : Json → Option BinaryOp
  | .string symbol => BinaryOp.ofSymbol? symbol
  | .object [(symbol, .null)] | .object [(symbol, .object [])] => BinaryOp.ofSymbol? symbol
  | _ => none

def parts? : Json → Option (Tag × List Json)
  | .object members => do
    let tag ← (field? members "type").bind Tag.ofJson?
    let values ← values? members tag.fields
    return (tag, values)
  | .array (head :: values) => do
    let tag ← Tag.ofJson? head
    if values.length = tag.fields.length then return (tag, values) else none
  | _ => none

theorem sizeOf_field?_lt {members : List (String × Json)} {name : String} {v : Json}
    (h : field? members name = some v) : sizeOf v < sizeOf members := by
  unfold field? at h
  split at h
  · rename_i key value hf
    cases h
    have hm : (key, v) ∈ members.filter (·.1 = name) := hf ▸ List.mem_singleton_self _
    have hs := List.sizeOf_lt_of_mem (List.mem_filter.mp hm).1
    rw [Prod.mk.sizeOf_spec] at hs
    omega
  · cases h

theorem sizeOf_values?_lt {members : List (String × Json)} {names : List String}
    {values : List Json} (h : values? members names = some values) {v : Json} (hv : v ∈ values) :
    sizeOf v < sizeOf members := by
  induction names generalizing values with
  | nil =>
    cases h
    cases hv
  | cons name names ih =>
    simp only [values?, Option.bind_eq_bind, Option.bind_eq_some_iff, Option.pure_def,
      Option.some.injEq] at h
    obtain ⟨first, hf, more, hm, rfl⟩ := h
    rcases List.mem_cons.mp hv with rfl | hv
    · exact sizeOf_field?_lt hf
    · exact ih hm hv

theorem sizeOf_parts?_lt {v w : Json} {tag : Tag} {values : List Json}
    (h : parts? v = some (tag, values)) (hw : w ∈ values) : sizeOf w < sizeOf v := by
  unfold parts? at h
  split at h
  · simp only [Option.bind_eq_bind, Option.bind_eq_some_iff, Option.pure_def, Option.some.injEq,
      Prod.mk.injEq] at h
    obtain ⟨_, _, _, hv, rfl, rfl⟩ := h
    have := sizeOf_values?_lt hv hw
    rw [Json.object.sizeOf_spec]
    omega
  · simp only [Option.bind_eq_bind, Option.bind_eq_some_iff] at h
    obtain ⟨t, _, h⟩ := h
    split at h
    · cases h
      have := List.sizeOf_lt_of_mem hw
      rw [Json.array.sizeOf_spec, List.cons.sizeOf_spec]
      omega
    · cases h
  · cases h

theorem sizeOf_left_lt {v op left right : Json} {tag : Tag}
    (h : parts? v = some (tag, [op, left, right])) : sizeOf left < sizeOf v :=
  sizeOf_parts?_lt h (List.mem_cons_of_mem _ List.mem_cons_self)

theorem sizeOf_right_lt {v op left right : Json} {tag : Tag}
    (h : parts? v = some (tag, [op, left, right])) : sizeOf right < sizeOf v :=
  sizeOf_parts?_lt h (List.mem_cons_of_mem _ (List.mem_cons_of_mem _ List.mem_cons_self))

theorem sizeOf_child_lt {v : Json} {children : List Json} {tag : Tag}
    (h : parts? v = some (tag, [.array children])) (child : { c // c ∈ children }) :
    sizeOf child.1 < sizeOf v := by
  have ha := sizeOf_parts?_lt h List.mem_cons_self
  have hc := List.sizeOf_lt_of_mem child.2
  rw [Json.array.sizeOf_spec] at ha
  omega

def ofJson? (v : Json) : Option Wire :=
  match h : parts? v with
  | some (.number, [.string text]) => some (.number text)
  | some (.var, [.string name]) => some (.var name)
  | some (.arg, [.string value]) => some (.arg value)
  | some (.binary, [op, left, right]) => do
    have := sizeOf_left_lt h
    have := sizeOf_right_lt h
    let op ← opOfJson? op
    let l ← ofJson? left
    let r ← ofJson? right
    return .binary op l r
  | some (.expression, [.array children]) => do
    let decoded ← children.attach.mapM fun child =>
      have := sizeOf_child_lt h child
      ofJson? child.1
    return .expression decoded
  | _ => none
termination_by sizeOf v

end Wire
end MathMarkup
