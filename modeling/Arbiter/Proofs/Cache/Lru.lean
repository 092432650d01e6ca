import Arbiter.Cache.Get

namespace Arbiter

universe u v w

variable {α : Type u} {ε : Type v}

structure Lru.Entry (α : Type u) where
  key : String
  value : α
  deadline : Nat

structure Lru (α : Type u) where
  capacity : Nat
  entries : List (Lru.Entry α)

namespace Lru

def ofCapacity (n : Nat) : Lru α := ⟨n, []⟩

def find? (l : Lru α) (key : String) : Option (Entry α) := l.entries.find? (·.key == key)

def erase (l : Lru α) (key : String) : Lru α :=
  { l with entries := l.entries.filter (·.key != key) }

def push (l : Lru α) (e : Entry α) : Lru α := { l with entries := e :: l.entries }

def makeRoom (l : Lru α) : Lru α :=
  if l.entries.length = l.capacity then { l with entries := l.entries.dropLast } else l

theorem capacity_makeRoom (l : Lru α) : l.makeRoom.capacity = l.capacity := by
  unfold makeRoom
  split <;> rfl

def settle (l : Lru α) (now : Instant) (key : String) (ttl : Duration) :
    Except (LoadError ε) α → Lru α
  | .ok value => l.push ⟨key, value, now.nanos + ttl.nanos⟩
  | .error _ => l

def get (l : Lru α) (now : Instant) (key : String) (ttl : Duration)
    (load : String → Except (LoadError ε) α) : Lru α × Cache.Served ε α :=
  if ttl.isZero then (l, ⟨load key, true⟩)
  else
    match l.find? key with
    | some e =>
      if now.nanos < e.deadline then ((l.erase key).push e, ⟨.ok e.value, false⟩)
      else ((l.erase key).settle now key ttl (load key), ⟨load key, true⟩)
    | none => (l.makeRoom.settle now key ttl (load key), ⟨load key, true⟩)

theorem capacity_settle (l : Lru α) (now : Instant) (key : String) (ttl : Duration)
    (outcome : Except (LoadError ε) α) : (l.settle now key ttl outcome).capacity = l.capacity := by
  cases outcome <;> rfl

theorem capacity_get (l : Lru α) (now : Instant) (key : String) (ttl : Duration)
    (load : String → Except (LoadError ε) α) :
    (l.get now key ttl load).1.capacity = l.capacity := by
  unfold get
  split
  · rfl
  · split
    · split
      · rfl
      · exact capacity_settle (l.erase key) now key ttl (load key)
    · rw [capacity_settle, capacity_makeRoom]

def peek (l : Lru α) (now : Instant) (key : String) : Option α :=
  (l.find? key).bind fun e => if now.nanos < e.deadline then some e.value else none

def contains (l : Lru α) (key : String) : Bool := (l.find? key).isSome

def delete (l : Lru α) (key : String) : Lru α × Bool := (l.erase key, l.contains key)

def size (l : Lru α) : Nat := l.entries.length

def keys (l : Lru α) : List String := l.entries.map Entry.key

end Lru

inductive Serial.Request (ε : Type v) (α : Type u) where
  | get (key : String) (ttl : Duration) (load : String → Except (LoadError ε) α)
  | peek (key : String)
  | contains (key : String)
  | delete (key : String)
  | size
  | keys

inductive Serial.Response (ε : Type v) (α : Type u) where
  | served (served : Cache.Served ε α)
  | blocked
  | found (value : Option α)
  | flag (b : Bool)
  | count (n : Nat)
  | keys (keys : List String)

def Cache.respond (c : Cache α) (now : Instant) :
    Serial.Request ε α → Cache α × Serial.Response ε α
  | .get key ttl load =>
    match c.get now key ttl load with
    | (c, some served) => (c, .served served)
    | (c, none) => (c, .blocked)
  | .peek key => (c, .found (c.peek now key))
  | .contains key => (c, .flag (c.contains key))
  | .delete key => ((c.delete key).1, .flag (c.delete key).2)
  | .size => (c, .count c.size)
  | .keys => (c, .keys c.keys)

def Lru.respond (l : Lru α) (now : Instant) : Serial.Request ε α → Lru α × Serial.Response ε α
  | .get key ttl load => ((l.get now key ttl load).1, .served (l.get now key ttl load).2)
  | .peek key => (l, .found (l.peek now key))
  | .contains key => (l, .flag (l.contains key))
  | .delete key => ((l.delete key).1, .flag (l.delete key).2)
  | .size => (l, .count l.size)
  | .keys => (l, .keys l.keys)

theorem Lru.capacity_respond (l : Lru α) (now : Instant) (r : Serial.Request ε α) :
    (l.respond now r).1.capacity = l.capacity := by
  cases r with
  | get key ttl load => exact l.capacity_get now key ttl load
  | _ => rfl

namespace Serial

inductive Event (ε : Type v) (α : Type u) where
  | ask (r : Request ε α)
  | advance (span : Duration)

/-- The responses to requests that come one after the other, as time passes. A time that no clock
can show is not reached. -/
def responses {σ : Type w} (respond : σ → Instant → Request ε α → σ × Response ε α) (s : σ)
    (now : Instant) : List (Event ε α) → List (Response ε α)
  | [] => []
  | .ask r :: es => (respond s now r).2 :: responses respond (respond s now r).1 now es
  | .advance span :: es => responses respond s ((now.add? span).getD now) es

end Serial

end Arbiter
