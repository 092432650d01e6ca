import Std.Data.TreeMap
import Arbiter.Cache.Cell
import Arbiter.Cache.Error
import Arbiter.Debug
import Arbiter.Metrics

/-!
A bounded cache of loaded values. Callers ask for a key; the first to miss it claims a slot and
loads, the others wait for that load. Each function here is one step that nothing interrupts; a
request is two of them, with the load in between and any other steps beside it.

A claim is a ticket: the slot and the generation of its load. A load that ends after its ticket
has been taken away, by a delete or an eviction, leaves the cache as it is.
-/

namespace Arbiter

universe u v

structure Ticket where
  slot : Slot
  generation : UInt64
  deriving DecidableEq, Repr

inductive Lookup (α : Type u) where
  | hit (value : α)
  | inFlight (load : Ticket)
  | claimed (claim : Ticket)
  | unavailable
  deriving DecidableEq, Repr

structure Cache (α : Type u) where
  table : Std.TreeMap String Slot
  owners : Arena (Option String)
  links : Links
  cells : Arena (Cell α)
  counters : Counters

namespace Cache

variable {α : Type u}

def ofCapacity (capacity : Nat) : Cache α where
  table := ∅
  owners := .ofFn capacity fun _ => none
  links := .ofCapacity capacity
  cells := .ofFn capacity fun _ => .empty
  counters := .zero

def new? (capacity : Nat) : Except ConfigError (Cache α) :=
  if capacity = 0 then .error .zeroCapacity else .ok (ofCapacity capacity)

def capacity (c : Cache α) : Nat := c.cells.capacity

def size (c : Cache α) : Nat := c.table.size

def isEmpty (c : Cache α) : Bool := c.size == 0

def contains (c : Cache α) (key : String) : Bool := c.table.contains key

def owner? (c : Cache α) (s : Slot) : Option String := c.owners[s]?.join

def keys (c : Cache α) : List String := c.links.recency.filterMap c.owner?

def cell (c : Cache α) (s : Slot) : Cell α := c.cells[s]?.getD .empty

def record (c : Cache α) (e : Event) : Cache α := { c with counters := c.counters.record e }

def touch (c : Cache α) (s : Slot) : Cache α := { c with links := c.links.moveToFront s }

def reset (c : Cache α) (s : Slot) : Cache α := { c with cells := c.cells.modify s .reset }

def assign (c : Cache α) (s : Slot) (key : String) : Cache α :=
  { c with owners := c.owners.set s (some key), table := c.table.insert key s,
           links := c.links.pushFront s }

def unassign (c : Cache α) (s : Slot) : Cache α :=
  match c.owner? s with
  | some key =>
    { c with owners := c.owners.set s none, table := c.table.erase key, links := c.links.unlink s }
  | none => c

def release (c : Cache α) (s : Slot) : Cache α :=
  let c := c.unassign s
  { c with links := c.links.pushFree s }

/-- The least recently used slot that is not loading, or, when all are, the least recently used. -/
def victim? (c : Cache α) : Option Slot :=
  (c.links.oldestFirst.find? fun s => !(c.cell s).content.isLoading).or c.links.tail

def evict? (c : Cache α) : Option (Slot × Cache α) :=
  c.victim?.map fun s => (s, ((c.unassign s).reset s).record .eviction)

def takeSlot? (c : Cache α) : Option (Slot × Cache α) :=
  match c.links.popFree? with
  | some (s, links) => some (s, { c with links })
  | none => c.evict?

def claim (c : Cache α) (s : Slot) : Cache α × Lookup α :=
  let cell := (c.cell s).beginLoad
  ({ c with cells := c.cells.set s cell }, .claimed ⟨s, cell.generation⟩)

def lookup (c : Cache α) (now : Instant) (key : String) : Cache α × Lookup α :=
  match c.table[key]? with
  | some s =>
    let cell := c.cell s
    if cell.content.isLoading then (c, .inFlight ⟨s, cell.generation⟩)
    else
      match cell.content.fresh? now with
      | some value => ((c.touch s).record .hit, .hit value)
      | none => ((c.touch s).record .miss).claim s
  | none =>
    let c := c.record .miss
    match c.takeSlot? with
    | some (s, c) => (c.assign s key).claim s
    | none => (c, .unavailable)

/-- The claim is still the one that `key` waits for. -/
def holds (c : Cache α) (key : String) (claim : Ticket) : Bool :=
  c.table[key]? == some claim.slot && (c.cell claim.slot).isLoading claim.generation

def store (c : Cache α) (s : Slot) (value : α) (expiry : Expiry) : Cache α :=
  { c with cells := c.cells.modify s (·.store value expiry) }

/-- Ends a load: a value is stored and its key promoted, after a failure the key is dropped. -/
def complete {ε : Type v} (c : Cache α) (now : Instant) (key : String) (claim : Ticket)
    (ttl : Duration) (outcome : Except (LoadError ε) α) : Cache α × Except (LoadError ε) α :=
  if c.holds key claim then
    match outcome with
    | .ok value => ((c.store claim.slot value (.after now ttl)).touch claim.slot, .ok value)
    | .error e => ((c.reset claim.slot).release claim.slot, .error e)
  else (c, outcome)

@[simp] theorem complete_snd {ε : Type v} (c : Cache α) (now : Instant) (key : String)
    (claim : Ticket) (ttl : Duration) (outcome : Except (LoadError ε) α) :
    (c.complete now key claim ttl outcome).2 = outcome := by
  unfold complete
  split
  · cases outcome <;> rfl
  · rfl

def peek (c : Cache α) (now : Instant) (key : String) : Option α :=
  c.table[key]?.bind fun s => (c.cell s).content.fresh? now

def delete (c : Cache α) (key : String) : Cache α × Bool :=
  match c.table[key]? with
  | some s => (((c.release s).reset s).record .deletion, true)
  | none => (c, false)

def snapshot (c : Cache α) : Snapshot := ⟨c.counters, c.size, c.capacity⟩

def summary (c : Cache α) (clock : Clock) : String :=
  debugStruct "LoadingCache" [("capacity", toString c.capacity), ("len", toString c.size),
    ("clock", clock.name)]

end Cache

end Arbiter
