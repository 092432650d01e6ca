import Arbiter.Slot.Audit

namespace Arbiter

universe u v

inductive LoadError (ε : Type u) where
  | loader (e : ε)
  | panicked (text : String)
  deriving DecidableEq, Repr

namespace LoadError

variable {ε : Type u}

def message (render : ε → String) : LoadError ε → String
  | .loader e => render e
  | .panicked text => "loader panicked: " ++ text

def isPanic : LoadError ε → Bool
  | .loader _ => false
  | .panicked _ => true

def loaderError? : LoadError ε → Option ε
  | .loader e => some e
  | .panicked _ => none

def panickedSilently : LoadError ε := .panicked "non-string panic payload"

end LoadError

inductive ConfigError where
  | zeroCapacity
  | zeroDecisionCapacity
  | other (text : String)
  deriving DecidableEq, Repr

def ConfigError.message : ConfigError → String
  | .zeroCapacity => "capacity must be > 0"
  | .zeroDecisionCapacity => "decision cache capacity must be > 0"
  | .other text => text

inductive Cache.Fault where
  | links (f : Links.Fault)
  | leftDetached
  | keyCount (keys slots : Nat)
  | notOwned (s : Slot) (key : String)
  | notListed (s : Slot)
  | owners
  | other (text : String)
  deriving DecidableEq, Repr

def Cache.Fault.message : Fault → String
  | .links f => f.message
  | .leftDetached => "slot left detached outside a critical section"
  | .keyCount keys slots => s!"key table has {keys} keys but recency list has {slots} slots"
  | .notOwned s key => s!"slot {s.index} is not owned by key `{key}`"
  | .notListed s => s!"mapped slot {s.index} is not on the recency list"
  | .owners => "slot owners disagree with key table"
  | .other text => text

end Arbiter
