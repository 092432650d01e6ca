import Arbiter.Proofs.Links.Checked

namespace Arbiter

universe u v

inductive Membership where
  | free | detached | linked
  deriving DecidableEq, Repr

structure Record where
  prev : Option Slot
  next : Option Slot
  membership : Membership
  deriving DecidableEq, Repr

def Link.record : Link → Record
  | .free next => ⟨none, next, .free⟩
  | .detached => ⟨none, none, .detached⟩
  | .linked prev next => ⟨prev, next, .linked⟩

structure Records where
  nodes : Arena Record
  head : Option Slot
  tail : Option Slot
  top : Option Slot
  length : Nat
  freeLength : Nat

namespace Records

open Links (Operation Answer)

def ofCapacity (n : Nat) : Records where
  nodes := .ofFn n fun s => ⟨none, if s.offset + 1 < n then some ⟨s.offset + 1⟩ else none, .free⟩
  head := none
  tail := none
  top := if 0 < n then some ⟨0⟩ else none
  length := 0
  freeLength := n

def membership? (r : Records) (s : Slot) : Option Membership := r.nodes[s]?.map Record.membership

def detach (r : Records) (s : Slot) : Records :=
  match r.nodes[s]? with
  | none => r
  | some node =>
    let r := match node.prev with
      | some p => { r with nodes := r.nodes.modify p fun x => { x with next := node.next } }
      | none => { r with head := node.next }
    let r := match node.next with
      | some n => { r with nodes := r.nodes.modify n fun x => { x with prev := node.prev } }
      | none => { r with tail := node.prev }
    { r with nodes := r.nodes.set s ⟨none, none, .detached⟩, length := r.length - 1 }

def attachFront (r : Records) (s : Slot) : Records :=
  if r.nodes.contains s then
    let nodes := r.nodes.set s ⟨none, r.head, .linked⟩
    match r.head with
    | some h => { r with nodes := nodes.modify h fun x => { x with prev := some s },
                         head := some s, length := r.length + 1 }
    | none => { r with nodes, head := some s, tail := some s, length := r.length + 1 }
  else r

def stack (r : Records) (s : Slot) : Records :=
  { r with nodes := r.nodes.set s ⟨none, r.top, .free⟩, top := some s,
           freeLength := r.freeLength + 1 }

def popFree (r : Records) : Records × Option Slot :=
  match r.top with
  | none => (r, none)
  | some s =>
    match r.nodes[s]? with
    | none => (r, none)
    | some node =>
      ({ r with nodes := r.nodes.set s { node with next := none, membership := .detached },
                top := node.next, freeLength := r.freeLength - 1 }, some s)

def pushFree (r : Records) (s : Slot) : Records × Bool :=
  match r.membership? s with
  | some .linked => ((r.detach s).stack s, true)
  | some .detached => (r.stack s, true)
  | _ => (r, false)

def pushFront (r : Records) (s : Slot) : Records × Bool :=
  match r.membership? s with
  | some .detached => (r.attachFront s, true)
  | _ => (r, false)

def moveToFront (r : Records) (s : Slot) : Records × Bool :=
  match r.membership? s with
  | some .linked => if r.head = some s then (r, true) else ((r.detach s).attachFront s, true)
  | _ => (r, false)

def unlink (r : Records) (s : Slot) : Records × Bool :=
  match r.membership? s with
  | some .linked => (r.detach s, true)
  | _ => (r, false)

def act (r : Records) : Operation → Records × Answer
  | .popFree => r.popFree.map id .popped
  | .pushFree s => (r.pushFree s).map id .accepted
  | .pushFront s => (r.pushFront s).map id .accepted
  | .moveToFront s => (r.moveToFront s).map id .accepted
  | .unlink s => (r.unlink s).map id .accepted

end Records

namespace Arena

variable {α : Type u} {β : Type v}

def map (a : Arena α) (f : α → β) : Arena β := ⟨a.cells.map f⟩

theorem ext_getElem? {a b : Arena α} (h : ∀ s : Slot, a[s]? = b[s]?) : a = b := by
  obtain ⟨cells⟩ := a
  obtain ⟨cells'⟩ := b
  exact congrArg mk (Array.ext_getElem? fun i => h ⟨i⟩)

@[simp] theorem getElem?_map (a : Arena α) (f : α → β) (s : Slot) : (a.map f)[s]? = a[s]?.map f :=
  Array.getElem?_map ..

@[simp] theorem capacity_map (a : Arena α) (f : α → β) : (a.map f).capacity = a.capacity :=
  Array.size_map ..

theorem map_set (a : Arena α) (f : α → β) (s : Slot) (x : α) :
    (a.set s x).map f = (a.map f).set s (f x) := by
  refine ext_getElem? fun t => ?_
  rw [getElem?_map, getElem?_set, getElem?_set, getElem?_map]
  split
  · cases a[t]? <;> rfl
  · rfl

theorem map_modify (a : Arena α) {f : α → β} {s : Slot} {g : α → α} {g' : β → β}
    (same : ∀ x ∈ a[s]?, f (g x) = g' (f x)) : (a.modify s g).map f = (a.map f).modify s g' := by
  refine ext_getElem? fun t => ?_
  rw [getElem?_map, getElem?_modify, getElem?_modify, getElem?_map]
  split
  · subst t
    rw [Option.map_map, Option.map_map]
    exact Option.map_congr same
  · rfl

theorem map_ofFn (n : Nat) (g : Slot → α) (f : α → β) : (ofFn n g).map f = ofFn n (f ∘ g) := by
  refine ext_getElem? fun t => ?_
  rw [getElem?_map, getElem?_ofFn, getElem?_ofFn]
  split <;> rfl

end Arena

namespace Links

def records (l : Links) : Records :=
  ⟨l.nodes.map Link.record, l.head, l.tail, l.top, l.length, l.freeLength⟩

theorem records_ofCapacity (n : Nat) : (ofCapacity n).records = .ofCapacity n := by
  rw [records, ofCapacity, Records.ofCapacity, Arena.map_ofFn]
  rfl

section Redirect

variable {nodes : Arena Link} {s t : Slot} {l : Link}

theorem record_withNext (linked : l.isLinked = true) (next : Option Slot) :
    (l.withNext next).record = { l.record with next } := by
  cases l <;> first | rfl | cases linked

theorem record_withPrev (linked : l.isLinked = true) (prev : Option Slot) :
    (l.withPrev prev).record = { l.record with prev } := by
  cases l <;> first | rfl | cases linked

theorem isLinked_withNext (next : Option Slot) : (l.withNext next).isLinked = l.isLinked := by
  cases l <;> rfl

theorem linked_withNext (linked : ∀ x ∈ nodes[t]?, x.isLinked = true) (next : Option Slot) :
    ∀ x ∈ (nodes.modify s (Link.withNext next))[t]?, x.isLinked = true := by
  intro x mem
  rw [Arena.getElem?_modify] at mem
  split at mem
  · obtain ⟨y, is, rfl⟩ := Option.map_eq_some_iff.1 mem
    rw [isLinked_withNext]
    exact linked y is
  · exact linked x mem

theorem map_withNext (linked : ∀ x ∈ nodes[s]?, x.isLinked = true) (next : Option Slot) :
    (nodes.modify s (Link.withNext next)).map Link.record =
      (nodes.map Link.record).modify s fun x => { x with next } :=
  nodes.map_modify fun x mem => record_withNext (linked x mem) next

theorem map_withPrev (linked : ∀ x ∈ nodes[s]?, x.isLinked = true) (prev : Option Slot) :
    (nodes.modify s (Link.withPrev prev)).map Link.record =
      (nodes.map Link.record).modify s fun x => { x with prev } :=
  nodes.map_modify fun x mem => record_withPrev (linked x mem) prev

end Redirect

namespace Threads

variable {l : Links} {linked free : List Slot} {s : Slot} {prev next : Option Slot}

theorem isLinked_of_mem (h : l.Threads linked free) (mem : s ∈ linked) :
    ∀ x ∈ l.nodes[s]?, x.isLinked = true := by
  obtain ⟨p, n, at_s⟩ := h.linked_iff.1 mem
  rintro x is
  cases at_s.symm.trans is
  rfl

theorem records_detach (h : l.Threads linked free)
    (at_s : l.nodes[s]? = some (.linked prev next)) :
    (l.detach s prev next).records = l.records.detach s := by
  obtain ⟨after, before⟩ := h.neighbours_of_linked at_s
  replace after (t : Slot) (ht : t ∈ next) := h.isLinked_of_mem (after t ht)
  replace before (t : Slot) (ht : t ∈ prev) := h.isLinked_of_mem (before t ht)
  have record : l.records.nodes[s]? = some ⟨prev, next, .linked⟩ := by
    rw [records, Arena.getElem?_map, at_s]
    rfl
  rw [Records.detach, record]
  cases prev with
  | none =>
    cases next with
    | none => simp only [Links.detach, records, Arena.map_set, Link.record]
    | some n =>
      simp only [Links.detach, records, Arena.map_set, Link.record, map_withPrev (after n rfl)]
  | some p =>
    cases next with
    | none =>
      simp only [Links.detach, records, Arena.map_set, Link.record, map_withNext (before p rfl)]
    | some n =>
      simp only [Links.detach, records, Arena.map_set, Link.record,
        map_withPrev (linked_withNext (after n rfl) _), map_withNext (before p rfl)]

theorem records_attachFront (h : l.Threads linked free) (hs : s.offset < l.capacity) :
    (l.attachFront s).records = l.records.attachFront s := by
  have room : l.records.nodes.contains s = true := by
    rw [records, Arena.contains, Arena.capacity_map]
    exact decide_eq_true hs
  rw [Records.attachFront, if_pos room, Links.attachFront]
  cases first : l.head with
  | none => simp only [records, first, Arena.map_set, Link.record]
  | some t =>
    have mem : t ∈ linked := List.mem_of_head? (h.head ▸ first)
    have front : ∀ x ∈ (l.nodes.set s (.linked none (some t)))[t]?, x.isLinked = true := by
      intro x is
      rw [Arena.getElem?_set] at is
      split at is
      · obtain ⟨_, -, rfl⟩ := Option.map_eq_some_iff.1 is
        rfl
      · exact h.isLinked_of_mem mem x is
    simp only [records, first, map_withPrev front, Arena.map_set, Link.record]

theorem records_stack (l : Links) (s : Slot) : (l.stack s).records = l.records.stack s := by
  simp only [Links.stack, Records.stack, records, Arena.map_set, Link.record]

theorem records_popFree (h : l.Threads linked free) :
    l.records.act .popFree = ((l.act .popFree).1.records, (l.act .popFree).2) := by
  have top := h.top
  rw [Records.act, Records.popFree, Links.act, popFree?]
  cases free with
  | nil =>
    rw [List.head?_nil] at top
    simp only [records, top]
    rfl
  | cons s free =>
    rw [List.head?_cons] at top
    simp only [records, top, Arena.getElem?_map, h.stack.1, Option.map_some, Arena.map_set,
      Link.record, Link.next?]
    rfl

theorem membership?_records (l : Links) (s : Slot) :
    l.records.membership? s = l.nodes[s]?.map fun node => node.record.membership := by
  rw [Records.membership?, records, Arena.getElem?_map, Option.map_map]
  rfl

theorem records_pushFree (h : l.Threads linked free) (s : Slot) :
    l.records.pushFree s = ((l.pushFree s).records, (l.pushFree? s).isSome) := by
  rw [Records.pushFree, membership?_records, Links.pushFree, pushFree?]
  cases at_s : l.nodes[s]? with
  | none => rfl
  | some node =>
    cases node with
    | free next => rfl
    | detached => exact congrArg (·, true) (records_stack l s).symm
    | linked prev next =>
      refine congrArg (·, true) ?_
      rw [← h.records_detach at_s]
      exact (records_stack _ s).symm

theorem records_pushFront (h : l.Threads linked free) (s : Slot) :
    l.records.pushFront s = ((l.pushFront s).records, (l.pushFront? s).isSome) := by
  rw [Records.pushFront, membership?_records, Links.pushFront, pushFront?]
  cases at_s : l.nodes[s]? with
  | none => rfl
  | some node =>
    cases node with
    | free next => rfl
    | detached =>
      exact congrArg (·, true) (h.records_attachFront (Arena.lt_of_some at_s)).symm
    | linked prev next => rfl

theorem records_moveToFront (h : l.Threads linked free) (s : Slot) :
    l.records.moveToFront s = ((l.moveToFront s).records, (l.moveToFront? s).isSome) := by
  rw [Records.moveToFront, membership?_records, Links.moveToFront, moveToFront?]
  cases at_s : l.nodes[s]? with
  | none => rfl
  | some node =>
    cases node with
    | free next => rfl
    | detached => rfl
    | linked prev next =>
      have detached := h.records_detach at_s
      have range := Arena.lt_of_some at_s
      obtain ⟨before, after, rfl, rfl, rfl⟩ := h.split at_s
      show (if l.head = some s then _ else _) = _
      by_cases first : l.head = some s
      · simp [first]
      · have attached := h.detach.records_attachFront (s := s) (by rwa [capacity_detach])
        simp [first, ← detached, ← attached]

theorem records_unlink (h : l.Threads linked free) (s : Slot) :
    l.records.unlink s = ((l.unlink s).records, (l.unlink? s).isSome) := by
  rw [Records.unlink, membership?_records, Links.unlink, unlink?]
  cases at_s : l.nodes[s]? with
  | none => rfl
  | some node =>
    cases node with
    | free next => rfl
    | detached => rfl
    | linked prev next => exact congrArg (·, true) (h.records_detach at_s).symm

theorem records_act (h : l.Threads linked free) (o : Operation) :
    l.records.act o = ((l.act o).1.records, (l.act o).2) := by
  cases o with
  | popFree => exact h.records_popFree
  | pushFree s => exact congrArg (Prod.map id Answer.accepted) (h.records_pushFree s)
  | pushFront s => exact congrArg (Prod.map id Answer.accepted) (h.records_pushFront s)
  | moveToFront s => exact congrArg (Prod.map id Answer.accepted) (h.records_moveToFront s)
  | unlink s => exact congrArg (Prod.map id Answer.accepted) (h.records_unlink s)

end Threads

theorem Threading.records_replay {n : Nat} {l : Links} {p : Lists} (h : Threading n l p)
    (os : List Operation) :
    Links.replay Records.act l.records os =
      ((Links.replay Links.act l os).1.records, (Links.replay Links.act l os).2) := by
  induction os generalizing l p with
  | nil => rfl
  | cons o os ih =>
    rw [Links.replay, Links.replay, h.threads.records_act o]
    dsimp only
    rw [ih (h.act o).1]

end Links

end Arbiter
