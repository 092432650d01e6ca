import Arbiter.Interner

namespace Arbiter

structure Digraph where
  names : Interner
  adjacency : Array (List Nat)

namespace Digraph

def empty : Digraph := ⟨∅, #[]⟩

instance : EmptyCollection Digraph := ⟨empty⟩

def size (g : Digraph) : Nat := g.adjacency.size

def vertices (g : Digraph) : List Nat := List.range g.size

def successors (g : Digraph) (v : Nat) : List Nat := g.adjacency[v]?.getD []

def edgeCount (g : Digraph) : Nat := g.adjacency.toList.flatten.length

def vertex? (g : Digraph) (name : String) : Option Nat := g.names.handle? name

def name (g : Digraph) (v : Nat) : String := (g.names.name? v).getD ""

def mention (g : Digraph) (name : String) : Digraph × Nat :=
  let (names, v) := g.names.intern name
  (⟨names, if v = g.size then g.adjacency.push [] else g.adjacency⟩, v)

def addEdge (g : Digraph) (source target : String) : Digraph :=
  let (g, u) := g.mention source
  let (g, v) := g.mention target
  if v ∈ g.successors u then g
  else { g with adjacency := g.adjacency.modify u (· ++ [v]) }

end Digraph

end Arbiter
