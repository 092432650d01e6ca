import Arbiter.Proofs.Cache.Steps

/-!
Any number of callers at one cache, whose steps come in any order: gets that look up their key,
loads that end, deletes, peeks, and time that passes. A loader is no more than a gap between the
two steps of its call, so that what it asks of the cache itself comes as further steps.

`Service.turns` is the generation of each slot as it would be if it never wrapped around.
-/

namespace Arbiter

universe u v

variable {α : Type u} {ε : Type v}

structure Call where
  id : Nat
  key : String
  ttl : Duration
  claim : Option Ticket
  turn : Nat
  deriving DecidableEq, Repr

inductive Action (ε : Type v) (α : Type u) where
  | enter (key : String) (ttl : Duration)
  | settle (id : Nat) (outcome : Except (LoadError ε) α)
  | delete (key : String)
  | peek (key : String)
  | advance (span : Duration)

inductive Reply (ε : Type v) (α : Type u) where
  | served (served : Cache.Served ε α)
  | waits (load : Ticket)
  | runs (call : Call)
  | found (value : Option α)
  | deleted (mapped : Bool)
  | nothing

structure Service (α : Type u) where
  cache : Cache α
  now : Instant
  running : List Call
  calls : Nat
  turns : Slot → Nat

namespace Service

def ofCapacity (n : Nat) : Service α := ⟨.ofCapacity n, .origin, [], 0, fun _ => 0⟩

/-- Slots have moved on by as many turns as their generations did. -/
def put (σ : Service α) (c : Cache α) : Service α :=
  { σ with cache := c,
           turns := fun s =>
            σ.turns s + ((c.cell s).generation - (σ.cache.cell s).generation).toNat }

def call (σ : Service α) (key : String) (ttl : Duration) (claim : Option Ticket) : Call :=
  ⟨σ.calls, key, ttl, claim, match claim with
    | some t => σ.turns t.slot
    | none => 0⟩

def start (σ : Service α) (call : Call) : Service α :=
  { σ with running := call :: σ.running, calls := σ.calls + 1 }

def respond (σ : Service α) (key : String) (ttl : Duration) :
    Cache α × Cache.Admission α → Service α × Reply ε α
  | (c, .hit value) => (σ.put c, .served ⟨.ok value, false⟩)
  | (c, .wait load) => (σ.put c, .waits load)
  | (c, .run claim) =>
    let call := (σ.put c).call key ttl claim
    ((σ.put c).start call, .runs call)

def close (σ : Service α) (call : Call) : Service α :=
  { σ with running := σ.running.filter (·.id != call.id) }

def settle (σ : Service α) (call : Call) (outcome : Except (LoadError ε) α) :
    Service α × Reply ε α :=
  let (c, result) := σ.cache.settle σ.now call.key call.ttl call.claim outcome
  ((σ.put c).close call, .served ⟨result, true⟩)

theorem settle_eq (σ : Service α) (call : Call) (outcome : Except (LoadError ε) α) :
    σ.settle call outcome =
      ((σ.put (σ.cache.settle σ.now call.key call.ttl call.claim outcome).1).close call,
        .served ⟨outcome, true⟩) := by
  have result := σ.cache.settle_snd σ.now call.key call.ttl call.claim outcome
  exact congrArg (fun result => (_, Reply.served ⟨result, true⟩)) result

/-- The end of a load that is not running, and a time that no clock can show, change nothing. -/
def act (σ : Service α) : Action ε α → Service α × Reply ε α
  | .enter key ttl => σ.respond key ttl (σ.cache.enter σ.now key ttl)
  | .settle id outcome =>
    match σ.running.find? (·.id == id) with
    | some call => σ.settle call outcome
    | none => (σ, .nothing)
  | .delete key => (σ.put (σ.cache.delete key).1, .deleted (σ.cache.delete key).2)
  | .peek key => (σ, .found (σ.cache.peek σ.now key))
  | .advance span =>
    match σ.now.add? span with
    | some now => ({ σ with now }, .nothing)
    | none => (σ, .nothing)

def step (σ : Service α) (a : Action ε α) : Service α := (σ.act a).1

def reply (σ : Service α) (a : Action ε α) : Reply ε α := (σ.act a).2

def run (σ : Service α) (as : List (Action ε α)) : Service α := as.foldl step σ

@[simp] theorem run_nil (σ : Service α) : σ.run ([] : List (Action ε α)) = σ := rfl

@[simp] theorem run_cons (σ : Service α) (a : Action ε α) (as : List (Action ε α)) :
    σ.run (a :: as) = (σ.step a).run as := rfl

@[simp] theorem run_append (σ : Service α) (as bs : List (Action ε α)) :
    σ.run (as ++ bs) = (σ.run as).run bs := List.foldl_append

end Service

end Arbiter
