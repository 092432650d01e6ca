namespace Arbiter

inductive Event where
  | hit
  | miss
  | bypass
  | wait
  | load
  | failure (panicked : Bool)
  | eviction
  | deletion
  deriving DecidableEq, Repr

structure Counters where
  hits : UInt64
  misses : UInt64
  bypasses : UInt64
  waits : UInt64
  loads : UInt64
  failures : UInt64
  panics : UInt64
  evictions : UInt64
  deletions : UInt64
  deriving DecidableEq, Repr

namespace Counters

def zero : Counters := ⟨0, 0, 0, 0, 0, 0, 0, 0, 0⟩

def record (c : Counters) : Event → Counters
  | .hit => { c with hits := c.hits + 1 }
  | .miss => { c with misses := c.misses + 1 }
  | .bypass => { c with bypasses := c.bypasses + 1 }
  | .wait => { c with waits := c.waits + 1 }
  | .load => { c with loads := c.loads + 1 }
  | .failure panicked =>
    { c with failures := c.failures + 1, panics := c.panics + if panicked then 1 else 0 }
  | .eviction => { c with evictions := c.evictions + 1 }
  | .deletion => { c with deletions := c.deletions + 1 }

def toList (c : Counters) : List UInt64 :=
  [c.hits, c.misses, c.bypasses, c.waits, c.loads, c.failures, c.panics, c.evictions, c.deletions]

end Counters

structure Snapshot where
  counters : Counters
  length : Nat
  capacity : Nat
  deriving DecidableEq, Repr

namespace Snapshot

def hitRatio (s : Snapshot) : Float :=
  let lookups := s.counters.hits + s.counters.misses
  if lookups = 0 then 0 else s.counters.hits.toFloat / lookups.toFloat

end Snapshot

end Arbiter
