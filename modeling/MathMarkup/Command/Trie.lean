import MathMarkup.Command

/-!
# Command tries

A tree over the bytes of the keys. Keys with a common beginning share its branches, so that a name is
found in a walk over its own bytes.
-/

namespace MathMarkup.Command

/-- A branch stands for one byte: `value` belongs to the key that stops there, `below` holds the keys
that go on, and `beside` the keys that have another byte in its place. -/
inductive Branches
  | nil
  | branch (byte : UInt8) (value : Option Command) (below beside : Branches)
  deriving Repr

namespace Branches

def find? : Branches → UInt8 → List UInt8 → Option Command
  | nil, _, _ => none
  | branch byte value below beside, b, bs =>
    if b = byte then
      match bs with
      | [] => value
      | c :: cs => below.find? c cs
    else beside.find? b bs

def single (command : Command) : UInt8 → List UInt8 → Branches
  | b, [] => branch b command nil nil
  | b, c :: cs => branch b none (single command c cs) nil

def insert (command : Command) : Branches → UInt8 → List UInt8 → Branches
  | nil, b, bs => single command b bs
  | branch byte value below beside, b, bs =>
    if b = byte then
      match bs with
      | [] => branch byte command below beside
      | c :: cs => branch byte value (insert command below c cs) beside
    else branch byte value below (insert command beside b bs)

end Branches

structure Trie where
  root : Option Command
  branches : Branches
  deriving Repr

namespace Trie

def empty : Trie := ⟨none, .nil⟩

def insert (t : Trie) (key : String) (command : Command) : Trie :=
  match keyBytes key with
  | [] => { t with root := command }
  | b :: bs => { t with branches := t.branches.insert command b bs }

def ofList (entries : Entries) : Trie := entries.foldl (fun t e => t.insert e.1 e.2) empty

def find? (t : Trie) (name : String) : Option Command :=
  match keyBytes name with
  | [] => t.root
  | b :: bs => t.branches.find? b bs

end Trie

def standardTrie : Trie := Trie.ofList standard

end MathMarkup.Command
