import Arbiter.Digraph

namespace Arbiter

namespace Digraph

/-- A peeling under way: how many unemitted predecessors each vertex has, the unemitted vertices
that have none, ascending, and the emitted ones, latest first. -/
structure Peel where
  indegree : Array Nat
  ready : List Nat
  emitted : List Nat

namespace Peel

def insertAscending (v : Nat) : List Nat → List Nat
  | [] => [v]
  | w :: ws => if v ≤ w then v :: w :: ws else w :: insertAscending v ws

def indegrees (g : Digraph) : Array Nat :=
  (g.vertices.flatMap g.successors).foldl (fun ds v => ds.modify v (· + 1))
    (Array.replicate g.size 0)

def degree (p : Peel) (v : Nat) : Nat := p.indegree[v]?.getD 0

def start (g : Digraph) : Peel :=
  let p : Peel := ⟨indegrees g, [], []⟩
  { p with ready := g.vertices.filter (p.degree · == 0) }

def relax (p : Peel) (v : Nat) : Peel :=
  let p := { p with indegree := p.indegree.modify v (· - 1) }
  if p.degree v = 0 then { p with ready := insertAscending v p.ready } else p

def step (g : Digraph) (p : Peel) : Peel :=
  match p.ready with
  | [] => p
  | v :: ready =>
    (g.successors v).foldl relax { p with ready, emitted := v :: p.emitted }

def run (g : Digraph) : Nat → Peel → Peel
  | 0, p => p
  | n + 1, p => run g n (step g p)

end Peel

/-- Every vertex is emitted at most once, so as many steps as there are vertices complete a
peeling. -/
def peel (g : Digraph) : Peel := Peel.run g g.size (.start g)

/-- All vertices, sources first, or those that cannot be ordered, ascending. -/
def order (g : Digraph) : Except (List Nat) (List Nat) :=
  let p := g.peel
  if p.emitted.length = g.size then .ok p.emitted.reverse
  else .error (g.vertices.filter (0 < p.degree ·))

end Digraph

end Arbiter
