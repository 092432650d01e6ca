import Arbiter.Dependencies

namespace Arbiter

structure Module where
  name : String
  imports : List String
  source : String
  deriving DecidableEq, Repr

instance : Identified Module := ⟨Module.name⟩

inductive ImportError where
  | missing (module imported : String)
  | graph (e : GraphError)
  deriving DecidableEq, Repr

def ImportError.message : ImportError → String
  | .missing module imported =>
    "module `" ++ module ++ "` imports unknown module `" ++ imported ++ "`"
  | .graph e => e.message

structure Registry where
  index : Std.TreeMap String Nat
  modules : Array Module

namespace Registry

def empty : Registry := ⟨∅, #[]⟩

instance : EmptyCollection Registry := ⟨empty⟩

def insert (r : Registry) (m : Module) : Registry :=
  match r.index[m.name]? with
  | some i => { r with modules := r.modules.setIfInBounds i m }
  | none => ⟨r.index.insert m.name r.modules.size, r.modules.push m⟩

def insertAll (r : Registry) (ms : List Module) : Registry := ms.foldl insert r

def ofList (ms : List Module) : Registry := insertAll ∅ ms

def get? (r : Registry) (name : String) : Option Module :=
  r.index[name]?.bind fun i => r.modules[i]?

def contains (r : Registry) (name : String) : Bool := r.index.contains name

def size (r : Registry) : Nat := r.modules.size

def isEmpty (r : Registry) : Bool := r.modules.isEmpty

def toList (r : Registry) : List Module := r.modules.toList

def connectImport (r : Registry) (m : Module) (d : Dependencies Module) (imported : String) :
    Except ImportError (Dependencies Module) :=
  if r.contains imported then (d.connect imported m.name).mapError .graph
  else .error (.missing m.name imported)

/-- Every import comes before its importer. The first import that is missing, or is the importer
itself, is the error. -/
def dependencies (r : Registry) : Except ImportError (Dependencies Module) :=
  r.toList.foldlM (fun d m => m.imports.foldlM (r.connectImport m) d) (.ofList r.toList)

def loadOrder (r : Registry) : Except ImportError (List Module) := do
  let d ← r.dependencies
  d.sortValues.mapError .graph

end Registry

end Arbiter
