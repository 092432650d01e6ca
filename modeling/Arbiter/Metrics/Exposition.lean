import Arbiter.Metrics

namespace Arbiter

namespace Exposition

inductive Kind where
  | counter | gauge
  deriving DecidableEq, Repr

def Kind.name : Kind → String
  | .counter => "counter"
  | .gauge => "gauge"

structure Metric where
  kind : Kind
  name : String
  value : Nat
  deriving DecidableEq, Repr

def counterNames : List String :=
  ["hits_total", "misses_total", "bypasses_total", "waits_total", "loads_total",
    "load_failures_total", "loader_panics_total", "evictions_total", "deletions_total"]

def metrics (s : Snapshot) : List Metric :=
  (counterNames.zip s.counters.toList).map (fun (name, n) => ⟨.counter, name, n.toNat⟩) ++
    [⟨.gauge, "len", s.length⟩, ⟨.gauge, "capacity", s.capacity⟩]

def fullName (stem name : String) : String := if stem.isEmpty then name else stem ++ "_" ++ name

def Metric.render (stem : String) (m : Metric) : String :=
  let name := fullName stem m.name
  "# TYPE " ++ name ++ " " ++ m.kind.name ++ "\n" ++ name ++ " " ++ toString m.value ++ "\n"

def render (stem : String) (snapshots : List Snapshot) : String :=
  String.join ((snapshots.flatMap metrics).map (Metric.render stem))

end Exposition

end Arbiter
