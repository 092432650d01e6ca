import Arbiter.Slot.Links

namespace Arbiter

namespace Links

inductive Fault where
  | outOfRange (s : Slot)
  | notLinked (s : Slot)
  | cycle
  | stalePrev (s : Slot)
  | wrongTail
  | recencyLength (found kept : Nat)
  | notFree (s : Slot)
  | repeated (s : Slot)
  | freeLength (found kept : Nat)
  | accounting
  deriving DecidableEq, Repr

def Fault.message : Fault → String
  | .outOfRange s => s!"slot {s.index} out of range"
  | .notLinked s => s!"slot {s.index} reachable from head but not marked linked"
  | .cycle => "recency list contains a cycle"
  | .stalePrev s => s!"slot {s.index} has a stale prev link"
  | .wrongTail => "tail does not match last linked slot"
  | .recencyLength found kept => s!"recency list has {found} slots, expected {kept}"
  | .notFree s => s!"slot {s.index} on free stack but not marked free"
  | .repeated s => s!"slot {s.index} is on both lists or repeated on the free stack"
  | .freeLength found kept => s!"free stack has {found} slots, expected {kept}"
  | .accounting => "slot accounting does not add up to capacity"

structure Trail where
  seen : Arena Bool
  count : Nat
  last : Option Slot

namespace Trail

def start (seen : Arena Bool) : Trail := ⟨seen, 0, none⟩

def met (t : Trail) (s : Slot) : Bool := t.seen[s]?.getD false

def visit (t : Trail) (s : Slot) : Trail := ⟨t.seen.set s true, t.count + 1, some s⟩

end Trail

/-- A walk of more nodes than `fuel` meets a slot twice when `fuel` is the capacity. -/
def followRecency (l : Links) : (fuel : Nat) → Trail → Option Slot → Except Fault Trail
  | _, t, none => .ok t
  | 0, _, some _ => .error .cycle
  | n + 1, t, some s =>
    match l.nodes[s]? with
    | none => .error (.outOfRange s)
    | some (.linked prev next) =>
      if t.met s then .error .cycle
      else if prev ≠ t.last then .error (.stalePrev s)
      else l.followRecency n (t.visit s) next
    | some _ => .error (.notLinked s)

def followFree (l : Links) : (fuel : Nat) → Trail → Option Slot → Except Fault Trail
  | _, t, none => .ok t
  | 0, _, some s => .error (.repeated s)
  | n + 1, t, some s =>
    match l.nodes[s]? with
    | none => .error (.outOfRange s)
    | some (.free next) =>
      if t.met s then .error (.repeated s) else l.followFree n (t.visit s) next
    | some _ => .error (.notFree s)

def detachedCount (l : Links) : Nat := l.nodes.cells.toList.countP Link.isDetached

def audit (l : Links) : Except Fault Unit := do
  let linked ← l.followRecency l.capacity (.start (.ofFn l.capacity fun _ => false)) l.head
  if l.tail ≠ linked.last then throw .wrongTail
  if linked.count ≠ l.length then throw (.recencyLength linked.count l.length)
  let free ← l.followFree l.capacity (.start linked.seen) l.top
  if free.count ≠ l.freeLength then throw (.freeLength free.count l.freeLength)
  if linked.count + free.count + l.detachedCount ≠ l.capacity then throw .accounting

end Links

end Arbiter
