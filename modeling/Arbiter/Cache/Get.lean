import Arbiter.Cache

namespace Arbiter

namespace Cache

universe u v

variable {α : Type u} {ε : Type v}

inductive Admission (α : Type u) where
  | hit (value : α)
  | wait (load : Ticket)
  | run (claim : Option Ticket)
  deriving DecidableEq, Repr

def enter (c : Cache α) (now : Instant) (key : String) (ttl : Duration) : Cache α × Admission α :=
  if ttl.isZero then (c.record .bypass, .run none)
  else
    match c.lookup now key with
    | (c, .hit value) => (c, .hit value)
    | (c, .inFlight load) => (c.record .wait, .wait load)
    | (c, .claimed claim) => (c, .run (some claim))
    | (c, .unavailable) => (c, .run none)

def loadEvent : Except (LoadError ε) α → Event
  | .ok _ => .load
  | .error e => .failure e.isPanic

/-- The outcome of a load is counted whether or not its claim still holds. -/
def settle (c : Cache α) (now : Instant) (key : String) (ttl : Duration) (claim : Option Ticket)
    (outcome : Except (LoadError ε) α) : Cache α × Except (LoadError ε) α :=
  let c := c.record (loadEvent outcome)
  match claim with
  | some claim => c.complete now key claim ttl outcome
  | none => (c, outcome)

@[simp] theorem settle_snd (c : Cache α) (now : Instant) (key : String) (ttl : Duration)
    (claim : Option Ticket) (outcome : Except (LoadError ε) α) :
    (c.settle now key ttl claim outcome).2 = outcome := by
  cases claim with
  | some claim => exact complete_snd _ now key claim ttl outcome
  | none => rfl

structure Served (ε : Type v) (α : Type u) where
  result : Except (LoadError ε) α
  called : Bool

/-- Nothing is served while another caller's load is under way. -/
def get (c : Cache α) (now : Instant) (key : String) (ttl : Duration)
    (load : String → Except (LoadError ε) α) : Cache α × Option (Served ε α) :=
  match c.enter now key ttl with
  | (c, .hit value) => (c, some ⟨.ok value, false⟩)
  | (c, .wait _) => (c, none)
  | (c, .run claim) =>
    let (c, result) := c.settle now key ttl claim (load key)
    (c, some ⟨result, true⟩)

end Cache

end Arbiter
