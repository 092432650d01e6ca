import Arbiter.Digraph

/-!
Depth-first search for cycles. A vertex is white until it is reached, gray while it is on the
stack, black when all its successors have been tried. An edge into a gray vertex closes a cycle:
the stack from that vertex up.
-/

namespace Arbiter

namespace Digraph

inductive Mark where
  | white | gray | black
  deriving DecidableEq, Repr

structure Frame where
  vertex : Nat
  pending : List Nat

structure Search where
  marks : Array Mark
  stack : List Frame
  cycles : List (List Nat)

namespace Search

def start (g : Digraph) : Search := ⟨Array.replicate g.size .white, [], []⟩

def mark (s : Search) (v : Nat) : Mark := s.marks[v]?.getD .black

def setMark (s : Search) (v : Nat) (m : Mark) : Search :=
  { s with marks := s.marks.setIfInBounds v m }

def path (s : Search) : List Nat := (s.stack.map Frame.vertex).reverse

def enter (g : Digraph) (s : Search) (v : Nat) : Search :=
  { s.setMark v .gray with stack := ⟨v, g.successors v⟩ :: s.stack }

def step (g : Digraph) (s : Search) : Search :=
  match s.stack with
  | [] => s
  | ⟨v, []⟩ :: stack => { s.setMark v .black with stack }
  | ⟨v, w :: pending⟩ :: stack =>
    let s := { s with stack := ⟨v, pending⟩ :: stack }
    match s.mark w with
    | .white => s.enter g w
    | .gray => { s with cycles := s.path.dropWhile (· != w) :: s.cycles }
    | .black => s

/-- The search is over when the stack is empty, or at its first cycle where only one is wanted. -/
def finished (firstOnly : Bool) (s : Search) : Bool :=
  s.stack.isEmpty || (firstOnly && !s.cycles.isEmpty)

def run (g : Digraph) (firstOnly : Bool) : Nat → Search → Search
  | 0, s => s
  | n + 1, s => if s.finished firstOnly then s else run g firstOnly n (step g s)

/-- A search takes one step for each edge out of a vertex it reaches and one to leave it. -/
def budget (g : Digraph) : Nat := g.size + g.edgeCount

def visit (g : Digraph) (firstOnly : Bool) (s : Search) (root : Nat) : Search :=
  if s.mark root = .white && !(firstOnly && !s.cycles.isEmpty) then
    run g firstOnly (budget g) (s.enter g root)
  else s

end Search

/-- The cycles closed by a search from `roots`, in the order in which they are met. Each lists its
vertices in path order, the first one not repeated. -/
def cycles (g : Digraph) (firstOnly : Bool) (roots : List Nat) : List (List Nat) :=
  (roots.foldl (Search.visit g firstOnly) (.start g)).cycles.reverse

def firstCycle? (g : Digraph) (roots : List Nat) : Option (List Nat) :=
  (g.cycles true roots).head?

def closedCycle? (g : Digraph) (roots : List Nat) : Option (List Nat) :=
  (g.firstCycle? roots).map fun c => c ++ c.head?.toList

end Digraph

end Arbiter
