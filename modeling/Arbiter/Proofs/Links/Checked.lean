import Arbiter.Proofs.Links.Lists

namespace Arbiter

universe u

inductive Breach where
  | outOfRange (s : Slot)
  | underflow
  deriving DecidableEq, Repr

def lower : Nat → Except Breach Nat
  | 0 => .error .underflow
  | n + 1 => .ok n

theorem lower_eq {n : Nat} (positive : 0 < n) : lower n = .ok (n - 1) := by
  cases n with
  | zero => cases positive
  | succ n => rfl

namespace Arena

variable {α : Type u} {a : Arena α} {s : Slot}

def read (a : Arena α) (s : Slot) : Except Breach α :=
  match a[s]? with
  | some x => .ok x
  | none => .error (.outOfRange s)

def write (a : Arena α) (s : Slot) (x : α) : Except Breach (Arena α) :=
  if a.contains s then .ok (a.set s x) else .error (.outOfRange s)

def update (a : Arena α) (s : Slot) (f : α → α) : Except Breach (Arena α) :=
  if a.contains s then .ok (a.modify s f) else .error (.outOfRange s)

theorem read_eq {x : α} (at_s : a[s]? = some x) : a.read s = .ok x := by
  rw [read, at_s]

theorem write_eq (hs : s.offset < a.capacity) (x : α) : a.write s x = .ok (a.set s x) :=
  if_pos (decide_eq_true hs)

theorem update_eq (hs : s.offset < a.capacity) (f : α → α) :
    a.update s f = .ok (a.modify s f) :=
  if_pos (decide_eq_true hs)

end Arena

namespace Links

namespace Checked

def relinkNext (l : Links) (prev next : Option Slot) : Except Breach Links :=
  match prev with
  | some p => do return { l with nodes := ← l.nodes.update p (Link.withNext next) }
  | none => return { l with head := next }

def relinkPrev (l : Links) (prev next : Option Slot) : Except Breach Links :=
  match next with
  | some n => do return { l with nodes := ← l.nodes.update n (Link.withPrev prev) }
  | none => return { l with tail := prev }

def detach (l : Links) (s : Slot) (prev next : Option Slot) : Except Breach Links := do
  let l ← relinkNext l prev next
  let l ← relinkPrev l prev next
  return { l with nodes := ← l.nodes.write s .detached, length := ← lower l.length }

def attachFront (l : Links) (s : Slot) : Except Breach Links := do
  let nodes ← l.nodes.write s (.linked none l.head)
  match l.head with
  | some h =>
    return { l with nodes := ← nodes.update h (Link.withPrev (some s)), head := some s,
                    length := l.length + 1 }
  | none => return { l with nodes, head := some s, tail := some s, length := l.length + 1 }

def stack (l : Links) (s : Slot) : Except Breach Links := do
  return { l with nodes := ← l.nodes.write s (.free l.top), top := some s,
                  freeLength := l.freeLength + 1 }

def popFree? (l : Links) : Except Breach (Option (Slot × Links)) :=
  match l.top with
  | none => return none
  | some s => do
    let node ← l.nodes.read s
    return some (s, { l with nodes := ← l.nodes.write s .detached, top := node.next?,
                             freeLength := ← lower l.freeLength })

def unlink (l : Links) (s : Slot) : Except Breach Links := do
  match ← l.nodes.read s with
  | .linked prev next => detach l s prev next
  | _ => return l

def pushFree (l : Links) (s : Slot) : Except Breach Links := do
  match ← l.nodes.read s with
  | .linked prev next => stack (← detach l s prev next) s
  | .detached => stack l s
  | .free _ => return l

def pushFront (l : Links) (s : Slot) : Except Breach Links := do
  match ← l.nodes.read s with
  | .detached => attachFront l s
  | _ => return l

def moveToFront (l : Links) (s : Slot) : Except Breach Links := do
  match ← l.nodes.read s with
  | .linked prev next =>
    if l.head = some s then return l else attachFront (← detach l s prev next) s
  | _ => return l

def walk (l : Links) (next : Link → Option Slot) :
    (fuel : Nat) → (start : Option Slot) → Except Breach (List Slot)
  | 0, _ => return []
  | _ + 1, none => return []
  | n + 1, some s => do
    let node ← l.nodes.read s
    return s :: (← walk l next n (next node))

def recency (l : Links) : Except Breach (List Slot) := walk l Link.next? l.capacity l.head

def oldestFirst (l : Links) : Except Breach (List Slot) := walk l Link.prev? l.capacity l.tail

end Checked

structure Closed (l : Links) : Prop where
  head : ∀ s ∈ l.head, s.offset < l.capacity
  tail : ∀ s ∈ l.tail, s.offset < l.capacity
  top : ∀ s ∈ l.top, s.offset < l.capacity
  next : ∀ (s : Slot) (node : Link), l.nodes[s]? = some node →
    ∀ t ∈ node.next?, t.offset < l.capacity
  prev : ∀ (s : Slot) (node : Link), l.nodes[s]? = some node →
    ∀ t ∈ node.prev?, t.offset < l.capacity

theorem Stack.next_mem {nodes : Arena Link} {slots : List Slot} {s : Slot}
    (h : Stack nodes slots) (hs : s ∈ slots) :
    ∃ next, nodes[s]? = some (.free next) ∧ ∀ t ∈ next, t ∈ slots := by
  induction slots with
  | nil => cases hs
  | cons top slots ih =>
    cases hs with
    | head => exact ⟨_, h.1, fun t ht => List.mem_cons_of_mem _ (List.mem_of_head? ht)⟩
    | tail _ hs =>
      obtain ⟨next, at_s, below⟩ := ih h.2 hs
      exact ⟨next, at_s, fun t ht => List.mem_cons_of_mem _ (below t ht)⟩

namespace Threads

variable {l : Links} {linked free : List Slot} {s t : Slot} {prev next : Option Slot} {node : Link}

theorem split (h : l.Threads linked free) (at_s : l.nodes[s]? = some (.linked prev next)) :
    ∃ before after, linked = before ++ s :: after ∧ prev = before.getLast? ∧
      next = after.head? := by
  obtain ⟨before, after, rfl⟩ := List.append_of_mem (h.linked_iff.2 ⟨prev, next, at_s⟩)
  have node := h.node_of_linked
  rw [at_s] at node
  cases node
  exact ⟨before, after, rfl, rfl, rfl⟩

theorem neighbours_of_linked (h : l.Threads linked free)
    (at_s : l.nodes[s]? = some (.linked prev next)) :
    (∀ t ∈ next, t ∈ linked) ∧ ∀ t ∈ prev, t ∈ linked := by
  obtain ⟨before, after, rfl, rfl, rfl⟩ := h.split at_s
  constructor
  · intro t ht
    exact List.mem_append_right _ (List.mem_cons_of_mem _ (List.mem_of_head? ht))
  · intro t ht
    exact List.mem_append_left _ (List.mem_of_getLast? ht)

theorem neighbours (h : l.Threads linked free) (at_s : l.nodes[s]? = some node) :
    (∀ t ∈ node.next?, t ∈ linked ∨ t ∈ free) ∧ ∀ t ∈ node.prev?, t ∈ linked := by
  cases node with
  | free next =>
    obtain ⟨_, same, below⟩ := h.stack.next_mem (h.free_iff.2 ⟨next, at_s⟩)
    rw [at_s] at same
    cases same
    exact ⟨fun t ht => .inr (below t ht), nofun⟩
  | detached => exact ⟨nofun, nofun⟩
  | linked prev next =>
    obtain ⟨after, before⟩ := h.neighbours_of_linked at_s
    exact ⟨fun t ht => .inl (after t ht), before⟩

theorem closed (h : l.Threads linked free) : l.Closed where
  head _ hs := h.lt_of_linked (List.mem_of_head? (h.head ▸ hs))
  tail _ hs := h.lt_of_linked (List.mem_of_getLast? (h.tail ▸ hs))
  top _ hs := h.lt_of_free (List.mem_of_head? (h.top ▸ hs))
  next _ _ at_s t ht := ((h.neighbours at_s).1 t ht).elim h.lt_of_linked h.lt_of_free
  prev _ _ at_s t ht := h.lt_of_linked ((h.neighbours at_s).2 t ht)

end Threads

namespace Checked

variable {l : Links} {linked free : List Slot} {s : Slot} {prev next : Option Slot}

theorem detach_eq (h : l.Threads linked free) (at_s : l.nodes[s]? = some (.linked prev next)) :
    detach l s prev next = .ok (l.detach s prev next) := by
  have after := h.closed.next s _ at_s
  have before := h.closed.prev s _ at_s
  have range := Arena.lt_of_some at_s
  have positive : 0 < l.length := by
    rw [h.length]
    exact List.length_pos_of_mem (h.linked_iff.2 ⟨prev, next, at_s⟩)
  simp only [Link.next?, Link.prev?, capacity] at after before
  cases prev <;> cases next <;>
    simp [detach, relinkNext, relinkPrev, Links.detach, Arena.update_eq, Arena.write_eq, lower_eq,
      *, bind, Except.bind, pure, Except.pure]

example : detach (ofCapacity 1) ⟨0⟩ none none = .error .underflow := rfl

theorem attachFront_eq (closed : l.Closed) (hs : s.offset < l.capacity) :
    attachFront l s = .ok (l.attachFront s) := by
  rw [attachFront, Links.attachFront, Arena.write_eq hs]
  cases first : l.head with
  | none => rfl
  | some h =>
    have range : h.offset < (l.nodes.set s (.linked none (some h))).capacity := by
      rw [Arena.capacity_set]
      exact closed.head h first
    simp [Arena.update_eq range, bind, Except.bind, pure, Except.pure]

example : attachFront (ofCapacity 1) ⟨1⟩ = .error (.outOfRange ⟨1⟩) := rfl

theorem stack_eq (hs : s.offset < l.capacity) : stack l s = .ok (l.stack s) := by
  rw [stack, Arena.write_eq hs]
  rfl

theorem popFree?_eq (h : l.Threads linked free) : popFree? l = .ok l.popFree? := by
  rw [popFree?, Links.popFree?, h.top]
  cases free with
  | nil => rfl
  | cons s free =>
    have range := h.lt_of_free List.mem_cons_self
    have positive : 0 < l.freeLength := by
      rw [h.freeLength]
      exact Nat.succ_pos _
    simp only [List.head?_cons, h.stack.1, Arena.read_eq h.stack.1, Arena.write_eq range,
      lower_eq positive, bind, Except.bind, pure, Except.pure]

theorem unlink_eq (h : l.Threads linked free) (hs : s.offset < l.capacity) :
    unlink l s = .ok (l.unlink s) := by
  obtain ⟨node, at_s⟩ := Arena.some_of_lt hs
  rw [unlink, Links.unlink, unlink?, Arena.read_eq at_s, at_s]
  cases node with
  | free next => rfl
  | detached => rfl
  | linked prev next => exact detach_eq h at_s

theorem pushFree_eq (h : l.Threads linked free) (hs : s.offset < l.capacity) :
    pushFree l s = .ok (l.pushFree s) := by
  obtain ⟨node, at_s⟩ := Arena.some_of_lt hs
  rw [pushFree, Links.pushFree, pushFree?, Arena.read_eq at_s, at_s]
  cases node with
  | free next => rfl
  | detached => exact stack_eq hs
  | linked prev next =>
    show (detach l s prev next).bind (fun l => stack l s) = _
    rw [detach_eq h at_s]
    apply stack_eq
    rwa [capacity_detach]

theorem pushFront_eq (h : l.Threads linked free) (hs : s.offset < l.capacity) :
    pushFront l s = .ok (l.pushFront s) := by
  obtain ⟨node, at_s⟩ := Arena.some_of_lt hs
  rw [pushFront, Links.pushFront, pushFront?, Arena.read_eq at_s, at_s]
  cases node with
  | free next => rfl
  | detached => exact attachFront_eq h.closed hs
  | linked prev next => rfl

theorem moveToFront_eq (h : l.Threads linked free) (hs : s.offset < l.capacity) :
    moveToFront l s = .ok (l.moveToFront s) := by
  obtain ⟨node, at_s⟩ := Arena.some_of_lt hs
  rw [moveToFront, Links.moveToFront, moveToFront?, Arena.read_eq at_s, at_s]
  cases node with
  | free next => rfl
  | detached => rfl
  | linked prev next =>
    show (if l.head = some s then .ok l
      else (detach l s prev next).bind fun l => attachFront l s) = _
    by_cases first : l.head = some s
    · simp [first]
    · obtain ⟨before, after, rfl, rfl, rfl⟩ := h.split at_s
      simp only [first, if_false, detach_eq h at_s]
      apply attachFront_eq h.detach.closed
      rwa [capacity_detach]

theorem walk_eq {next : Link → Option Slot} (closed : ∀ (s : Slot) (node : Link),
      l.nodes[s]? = some node → ∀ t ∈ next node, t.offset < l.capacity)
    (fuel : Nat) {start : Option Slot} (range : ∀ s ∈ start, s.offset < l.capacity) :
    walk l next fuel start = .ok (l.walk next fuel start) := by
  induction fuel generalizing start with
  | zero => rfl
  | succ fuel ih =>
    cases start with
    | none => rfl
    | some s =>
      obtain ⟨node, at_s⟩ := Arena.some_of_lt (range s rfl)
      rw [walk, Links.walk, Arena.read_eq at_s, at_s]
      show (walk l next fuel (next node)).bind (fun rest => .ok (s :: rest)) = _
      rw [ih (closed s node at_s)]
      rfl

theorem recency_eq (h : l.Threads linked free) : recency l = .ok l.recency :=
  walk_eq h.closed.next l.capacity h.closed.head

theorem oldestFirst_eq (h : l.Threads linked free) : oldestFirst l = .ok l.oldestFirst :=
  walk_eq h.closed.prev l.capacity h.closed.tail

end Checked

end Links

end Arbiter
