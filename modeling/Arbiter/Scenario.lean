import Arbiter.Decision
import Arbiter.Cache.Audit
import Arbiter.Tokens

/-!
Scenarios: scripts of callers that share one cache, with loaders that follow a script of their own
while they run. A call may be spawned, to be joined later; where it has to wait for another
caller's load it stays suspended until then.
-/

namespace Arbiter

namespace Scenario

inductive Ending where
  | value (text : String)
  | echo
  | callNumber
  | unlessCanceled (text : String)
  | error (text : String)
  | panic (text : String)
  | silentPanic
  deriving DecidableEq, Repr

inductive Target where
  | key (key : String) (ttl : Duration)
  | decision (key : Decision.Key)
  deriving DecidableEq, Repr

structure Call (σ : Type) where
  target : Target
  token : String
  ending : Ending
  during : Option (List σ)

inductive Query where
  | peek (key : String)
  | contains (key : String)
  | delete (key : String)
  | size
  | capacity
  | isEmpty
  | summary
  | snapshot
  | exposition (stem : String)
  | advance (span : Duration)
  | cancel (token : String)
  | isCanceled (token : String)
  | calls
  | decisionKey (key : Decision.Key)
  | cached (key : Decision.Key)
  | invalidate (key : Decision.Key)
  | ttl
  | nothing
  deriving DecidableEq, Repr

inductive Step where
  | call (call : Call Step) (join : Option (List String))
  | spawn (id : String) (call : Call Step) (join : Option (List String))
  | ask (query : Query) (join : Option (List String))

def Step.join : Step → Option (List String)
  | .call _ join | .spawn _ _ join | .ask _ join => join

mutual

def Step.calls : Step → Nat
  | .call c _ | .spawn _ c _ => callsWithin c
  | .ask _ _ => 0

def callsWithin : Call Step → Nat
  | ⟨_, _, _, during⟩ => 1 + callsDuring during

def callsDuring : Option (List Step) → Nat
  | none => 0
  | some steps => callsIn steps

def callsIn : List Step → Nat
  | [] => 0
  | s :: steps => s.calls + callsIn steps

end

/-- What a call came to. The answers of its loader's steps are there where it ran a loader that
has steps. -/
structure Report (ω : Type) where
  served : Cache.Served String String
  during : Option (List ω)

inductive Reply (ω : Type) where
  | report (r : Report ω)
  | value (text : Option String)
  | flag (b : Bool)
  | count (n : Nat)
  | text (text : String)
  | duration (d : Duration)
  | snapshot (s : Snapshot)
  | done
  | refused
  | stuck
  | unsupported

structure View where
  entries : List (String × Option String)
  size : Nat
  audit : Except Cache.Fault Unit
  counters : Counters

inductive Answer where
  | mk (reply : Reply Answer) (view : Option View) (joined : Option (List (Option (Report Answer))))

end Scenario

end Arbiter
