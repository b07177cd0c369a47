import MathMarkup.Operator

/-!
# Commands

A command token means a binary operator, a unary operator, or nothing. What each means is given by a
list of entries, and the last entry of a key counts.
-/

namespace MathMarkup

inductive Command
  | binary (op : BinaryOp)
  | unary (op : UnaryOp)
  deriving DecidableEq, Repr

namespace Command

abbrev Entries := List (String × Command)

def standard : Entries := [
  ("+", .binary .add),
  ("\\cdot", .binary .multiply),
  ("\\times", .binary .multiply),
  ("\\frac", .binary .divide),
  ("\\div", .binary .divide),
  ("^", .binary .pow),
  ("\\sqrt", .unary .sqrt),
  ("-", .unary .negative)]

/-- What a name means in a list of entries: the last entry of that name counts. -/
def meaning (entries : Entries) (name : String) : Option Command := entries.reverse.lookup name

def keyBytes (key : String) : List UInt8 := key.toByteArray.data.toList

theorem keyBytes_inj {a b : String} : keyBytes a = keyBytes b ↔ a = b := by
  constructor
  · intro h
    exact String.toByteArray_inj.mp (ByteArray.ext (Array.toList_inj.mp h))
  · intro h
    rw [h]

theorem meaning_concat (entries : Entries) (key name : String) (c : Command) :
    meaning (entries ++ [(key, c)]) name =
      if name = key then some c else meaning entries name := by
  simp only [meaning, List.reverse_append, List.reverse_singleton, List.singleton_append,
    List.lookup_cons]
  split <;> simp_all

end Command
end MathMarkup
