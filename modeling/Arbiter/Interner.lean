import Std.Data.TreeMap

namespace Arbiter

structure Interner where
  index : Std.TreeMap String Nat
  names : Array String

namespace Interner

def empty : Interner := ⟨∅, #[]⟩

instance : EmptyCollection Interner := ⟨empty⟩

def size (i : Interner) : Nat := i.names.size

def isEmpty (i : Interner) : Bool := i.names.isEmpty

def handle? (i : Interner) (name : String) : Option Nat := i.index[name]?

def name? (i : Interner) (handle : Nat) : Option String := i.names[handle]?

def toList (i : Interner) : List String := i.names.toList

def intern (i : Interner) (name : String) : Interner × Nat :=
  match i.handle? name with
  | some h => (i, h)
  | none => (⟨i.index.insert name i.size, i.names.push name⟩, i.size)

end Interner

end Arbiter
