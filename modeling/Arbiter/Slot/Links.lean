import Arbiter.Slot.Arena

/-!
Two lists threaded through one pool of link nodes: a stack of free slots and a recency list of
occupied ones. A slot taken off the stack is detached until it is pushed on either list.

Operations whose name ends in `?` are refused with `none` when the slot is not in the state they
need, slots beyond the pool included. `Links.recency` and `Links.freeStack` are the two lists.
-/

namespace Arbiter

inductive Link where
  | free (next : Option Slot)
  | detached
  | linked (prev next : Option Slot)
  deriving DecidableEq, Repr

namespace Link

def next? : Link → Option Slot
  | .free next => next
  | .detached => none
  | .linked _ next => next

def prev? : Link → Option Slot
  | .linked prev _ => prev
  | _ => none

def isFree : Link → Bool
  | .free _ => true
  | _ => false

def isDetached : Link → Bool
  | .detached => true
  | _ => false

def isLinked : Link → Bool
  | .linked _ _ => true
  | _ => false

def withNext (next : Option Slot) : Link → Link
  | .linked prev _ => .linked prev next
  | l => l

def withPrev (prev : Option Slot) : Link → Link
  | .linked _ next => .linked prev next
  | l => l

end Link

structure Links where
  nodes : Arena Link
  head : Option Slot
  tail : Option Slot
  top : Option Slot
  length : Nat
  freeLength : Nat
  deriving Repr

namespace Links

def ofCapacity (n : Nat) : Links where
  nodes := .ofFn n fun s => .free (if s.offset + 1 < n then some ⟨s.offset + 1⟩ else none)
  head := none
  tail := none
  top := if 0 < n then some ⟨0⟩ else none
  length := 0
  freeLength := n

def capacity (l : Links) : Nat := l.nodes.capacity

def isEmpty (l : Links) : Bool := l.length == 0

def isFree (l : Links) (s : Slot) : Bool := l.nodes[s]?.any Link.isFree

def isLinked (l : Links) (s : Slot) : Bool := l.nodes[s]?.any Link.isLinked

/-- The slots met from `start` by following `next` for at most `fuel` nodes. -/
def walk (l : Links) (next : Link → Option Slot) : (fuel : Nat) → (start : Option Slot) → List Slot
  | 0, _ => []
  | _ + 1, none => []
  | n + 1, some s =>
    match l.nodes[s]? with
    | none => []
    | some node => s :: l.walk next n (next node)

def recency (l : Links) : List Slot := l.walk Link.next? l.capacity l.head

def oldestFirst (l : Links) : List Slot := l.walk Link.prev? l.capacity l.tail

def freeStack (l : Links) : List Slot := l.walk Link.next? l.capacity l.top

def detach (l : Links) (s : Slot) (prev next : Option Slot) : Links :=
  let l := match prev with
    | some p => { l with nodes := l.nodes.modify p (Link.withNext next) }
    | none => { l with head := next }
  let l := match next with
    | some n => { l with nodes := l.nodes.modify n (Link.withPrev prev) }
    | none => { l with tail := prev }
  { l with nodes := l.nodes.set s .detached, length := l.length - 1 }

def attachFront (l : Links) (s : Slot) : Links :=
  let nodes := l.nodes.set s (.linked none l.head)
  match l.head with
  | some h =>
    { l with nodes := nodes.modify h (Link.withPrev (some s)), head := some s,
             length := l.length + 1 }
  | none => { l with nodes, head := some s, tail := some s, length := l.length + 1 }

def stack (l : Links) (s : Slot) : Links :=
  { l with nodes := l.nodes.set s (.free l.top), top := some s, freeLength := l.freeLength + 1 }

def popFree? (l : Links) : Option (Slot × Links) :=
  match l.top with
  | none => none
  | some s =>
    match l.nodes[s]? with
    | none => none
    | some node =>
      some (s, { l with nodes := l.nodes.set s .detached, top := node.next?,
                        freeLength := l.freeLength - 1 })

def unlink? (l : Links) (s : Slot) : Option Links :=
  match l.nodes[s]? with
  | some (.linked prev next) => some (l.detach s prev next)
  | _ => none

def pushFree? (l : Links) (s : Slot) : Option Links :=
  match l.nodes[s]? with
  | some (.linked prev next) => some ((l.detach s prev next).stack s)
  | some .detached => some (l.stack s)
  | _ => none

def pushFront? (l : Links) (s : Slot) : Option Links :=
  match l.nodes[s]? with
  | some .detached => some (l.attachFront s)
  | _ => none

def moveToFront? (l : Links) (s : Slot) : Option Links :=
  match l.nodes[s]? with
  | some (.linked prev next) =>
    if l.head = some s then some l else some ((l.detach s prev next).attachFront s)
  | _ => none

def unlink (l : Links) (s : Slot) : Links := (l.unlink? s).getD l

def pushFree (l : Links) (s : Slot) : Links := (l.pushFree? s).getD l

def pushFront (l : Links) (s : Slot) : Links := (l.pushFront? s).getD l

def moveToFront (l : Links) (s : Slot) : Links := (l.moveToFront? s).getD l

end Links

end Arbiter
