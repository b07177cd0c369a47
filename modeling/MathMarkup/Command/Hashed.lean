import Std.Data.HashMap
import MathMarkup.Command

/-!
# Hashed command tables

Two tables of the same kind, which differ in the hash of a key: the hash of every string, or the
64-bit FNV-1a hash, which is short to compute for short keys.
-/

namespace MathMarkup.Command

/-- A key hashed byte by byte: exclusive or with the byte, then a multiplication by the prime. -/
structure FnvKey where
  text : String
  deriving DecidableEq, Repr

def fnv1a (text : String) : UInt64 :=
  (keyBytes text).foldl (fun h b => (h ^^^ b.toUInt64) * 0x100000001b3) 0xcbf29ce484222325

instance : Hashable FnvKey := ⟨fun key => fnv1a key.text⟩

structure HashedTable where
  entries : Std.HashMap String Command

structure FnvTable where
  entries : Std.HashMap FnvKey Command

namespace HashedTable

def ofList (entries : Entries) : HashedTable :=
  ⟨entries.foldl (fun t e => t.insert e.1 e.2) ∅⟩

def size (t : HashedTable) : Nat := t.entries.size

def find? (t : HashedTable) (name : String) : Option Command := t.entries[name]?

end HashedTable

namespace FnvTable

def ofList (entries : Entries) : FnvTable :=
  ⟨entries.foldl (fun t e => t.insert ⟨e.1⟩ e.2) ∅⟩

def size (t : FnvTable) : Nat := t.entries.size

def find? (t : FnvTable) (name : String) : Option Command := t.entries[FnvKey.mk name]?

end FnvTable
end MathMarkup.Command
