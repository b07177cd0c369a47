import MathMarkup.Command

/-!
# Sorted command tables

The entries stand in the order of their keys' bytes, each key once, and a name is found by halving.
-/

namespace MathMarkup.Command

def compareBytes : List UInt8 → List UInt8 → Ordering
  | [], [] => .eq
  | [], _ :: _ => .lt
  | _ :: _, [] => .gt
  | a :: as, b :: bs => (compare a b).then (compareBytes as bs)

structure SortedTable where
  entries : Array (String × Command)
  deriving DecidableEq, Repr

namespace SortedTable

/-- Takes one more entry up with those that are kept, which stand last first. It takes the place of
the last one if their keys are equal. -/
def keep : Entries → String × Command → Entries
  | [], entry => [entry]
  | last :: kept, entry => if entry.1 = last.1 then entry :: kept else entry :: last :: kept

def keepLast (entries : Entries) : Entries := (entries.foldl keep []).reverse

def ofList (entries : Entries) : SortedTable :=
  ⟨(keepLast (entries.mergeSort fun a b =>
    (compareBytes (keyBytes a.1) (keyBytes b.1)).isLE)).toArray⟩

def size (t : SortedTable) : Nat := t.entries.size

def search (t : SortedTable) (name : String) (lo hi : Nat) : Option Command :=
  if lo < hi then
    let mid := (lo + hi) / 2
    match t.entries[mid]? with
    | none => none
    | some (key, command) =>
      match compareBytes (keyBytes name) (keyBytes key) with
      | .eq => some command
      | .lt => t.search name lo mid
      | .gt => t.search name (mid + 1) hi
  else none
termination_by hi - lo

def find? (t : SortedTable) (name : String) : Option Command := t.search name 0 t.size

end SortedTable
end MathMarkup.Command
