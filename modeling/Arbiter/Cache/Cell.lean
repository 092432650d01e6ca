import Arbiter.Time

namespace Arbiter

universe u

inductive Expiry where
  | due (deadline : Instant)
  | never
  deriving DecidableEq, Repr

namespace Expiry

/-- A value whose deadline would be no instant never expires. -/
def after (now : Instant) (ttl : Duration) : Expiry :=
  match now.add? ttl with
  | some deadline => .due deadline
  | none => .never

def isFresh (now : Instant) : Expiry → Bool
  | .due deadline => now < deadline
  | .never => true

theorem isFresh_after (now stored : Instant) (ttl : Duration) :
    (after stored ttl).isFresh now = true ↔ now.nanos < stored.nanos + ttl.nanos := by
  unfold after
  cases h : stored.add? ttl with
  | some deadline =>
    rw [Instant.add?_eq_some_iff] at h
    simp [isFresh, Instant.lt_def, h]
  | none =>
    rw [Instant.add?_eq_none_iff] at h
    simp only [isFresh, true_iff]
    exact Nat.lt_of_lt_of_le now.nanos_lt h

end Expiry

inductive Content (α : Type u) where
  | vacant
  | loading
  | stored (value : α) (expiry : Expiry)
  deriving DecidableEq, Repr

namespace Content

variable {α : Type u}

def isLoading : Content α → Bool
  | .loading => true
  | _ => false

def value? : Content α → Option α
  | .stored value _ => some value
  | _ => none

def expiry? : Content α → Option Expiry
  | .stored _ expiry => some expiry
  | _ => none

def fresh? (now : Instant) : Content α → Option α
  | .stored value expiry => if expiry.isFresh now then some value else none
  | _ => none

end Content

structure Cell (α : Type u) where
  content : Content α
  generation : UInt64
  deriving DecidableEq, Repr

namespace Cell

variable {α : Type u}

def empty : Cell α := ⟨.vacant, 0⟩

def beginLoad (c : Cell α) : Cell α := ⟨.loading, c.generation + 1⟩

def reset (c : Cell α) : Cell α := ⟨.vacant, c.generation + 1⟩

def store (c : Cell α) (value : α) (expiry : Expiry) : Cell α :=
  { c with content := .stored value expiry }

def isLoading (c : Cell α) (generation : UInt64) : Bool :=
  c.content.isLoading && c.generation == generation

end Cell

end Arbiter
