import Arbiter.Debug
import Arbiter.Digraph.Peel
import Arbiter.Digraph.Cycles

namespace Arbiter

universe u

/-- Values with a name of their own; two values of one name are the same node. -/
class Identified (α : Type u) where
  identity : α → String

instance : Identified String := ⟨id⟩

inductive GraphError where
  | selfLoop (id : String)
  | nodeNotFound (id : String)
  | cycleDetected (path : List String)
  | notADag
  deriving DecidableEq, Repr

namespace GraphError

def message : GraphError → String
  | .selfLoop id => "self-loop rejected: `" ++ id ++ "` cannot depend on itself"
  | .nodeNotFound id => "node not found: `" ++ id ++ "`"
  | .cycleDetected path => "cycle detected: " ++ " -> ".intercalate path
  | .notADag => "graph is not a DAG"

def path? : GraphError → Option (List String)
  | .cycleDetected path => some path
  | _ => none

end GraphError

/-- A node as an order or a cycle shows it: its name, and its value where one is stored. -/
structure Node (α : Type u) where
  id : String
  value? : Option α

namespace Node

variable {α : Type u}

def resolve (n : Node α) : Except GraphError α :=
  match n.value? with
  | some x => .ok x
  | none => .error (.nodeNotFound n.id)

end Node

structure Dependencies (α : Type u) where
  values : Std.TreeMap String α
  graph : Digraph

namespace Dependencies

open Identified

variable {α : Type u}

def empty : Dependencies α := ⟨∅, ∅⟩

instance : EmptyCollection (Dependencies α) := ⟨empty⟩

def insert [Identified α] (d : Dependencies α) (x : α) : Dependencies α :=
  ⟨d.values.insert (identity x) x, (d.graph.mention (identity x)).1⟩

def insertAll [Identified α] (d : Dependencies α) (xs : List α) : Dependencies α :=
  xs.foldl insert d

def ofList [Identified α] (xs : List α) : Dependencies α := insertAll ∅ xs

def connect (d : Dependencies α) (source target : String) : Except GraphError (Dependencies α) :=
  if source = target then .error (.selfLoop source)
  else .ok { d with graph := d.graph.addEdge source target }

def connectValues [Identified α] (d : Dependencies α) (source target : α) :
    Except GraphError (Dependencies α) :=
  d.connect (identity source) (identity target)

def value? (d : Dependencies α) (id : String) : Option α := d.values[id]?

def contains (d : Dependencies α) (id : String) : Bool :=
  d.values.contains id || (d.graph.vertex? id).isSome

def size (d : Dependencies α) : Nat := d.graph.size

def edgeCount (d : Dependencies α) : Nat := d.graph.edgeCount

def successors (d : Dependencies α) (id : String) : List String :=
  match d.graph.vertex? id with
  | some v => (d.graph.successors v).map d.graph.name
  | none => []

def ids (d : Dependencies α) : List String := d.graph.names.toList

def node (d : Dependencies α) (v : Nat) : Node α :=
  ⟨d.graph.name v, d.value? (d.graph.name v)⟩

/-- Sources before targets; names that nothing constrains stay in order of first mention. -/
def sort (d : Dependencies α) : Except GraphError (List (Node α)) :=
  match d.graph.order with
  | .ok order => .ok (order.map d.node)
  | .error left =>
    .error (.cycleDetected (((d.graph.closedCycle? left).getD []).map d.graph.name))

def sortValues (d : Dependencies α) : Except GraphError (List α) := do
  (← d.sort).mapM Node.resolve

def firstCycle (d : Dependencies α) : List (Node α) :=
  ((d.graph.firstCycle? d.graph.vertices).getD []).map d.node

def allCycles (d : Dependencies α) : List (List (Node α)) :=
  (d.graph.cycles false d.graph.vertices).map (·.map d.node)

def isAcyclic (d : Dependencies α) : Bool := d.graph.order.toBool

def requireAcyclic (d : Dependencies α) : Except GraphError Unit :=
  if d.isAcyclic then .ok () else .error .notADag

def summary (d : Dependencies α) : String :=
  debugStruct "DependencyGraph" [("values", toString d.values.size),
    ("vertices", toString d.size), ("edges", toString d.edgeCount)]

end Dependencies

end Arbiter
