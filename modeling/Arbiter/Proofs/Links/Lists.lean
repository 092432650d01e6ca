import Arbiter.Proofs.Links.Threads

namespace Arbiter

namespace Links

/-- Where the slots of a pool are: most recently used first, top of the stack first, and those on
neither list. -/
structure Lists where
  recency : List Slot
  free : List Slot
  detached : List Slot

inductive Operation where
  | popFree
  | pushFree (s : Slot)
  | pushFront (s : Slot)
  | moveToFront (s : Slot)
  | unlink (s : Slot)

inductive Answer where
  | popped (s : Option Slot)
  | accepted (done : Bool)
  deriving DecidableEq

def attempt (l : Links) (done? : Option Links) : Links × Answer :=
  (done?.getD l, .accepted done?.isSome)

def act (l : Links) : Operation → Links × Answer
  | .popFree =>
    match l.popFree? with
    | some (s, l) => (l, .popped (some s))
    | none => (l, .popped none)
  | .pushFree s => l.attempt (l.pushFree? s)
  | .pushFront s => l.attempt (l.pushFront? s)
  | .moveToFront s => l.attempt (l.moveToFront? s)
  | .unlink s => l.attempt (l.unlink? s)

namespace Lists

def ofCapacity (n : Nat) : Lists := ⟨[], (List.range n).map .mk, []⟩

def act (p : Lists) : Operation → Lists × Answer
  | .popFree =>
    match p.free with
    | s :: free => (⟨p.recency, free, s :: p.detached⟩, .popped (some s))
    | [] => (p, .popped none)
  | .pushFree s =>
    if s ∈ p.recency ∨ s ∈ p.detached then
      (⟨p.recency.erase s, s :: p.free, p.detached.erase s⟩, .accepted true)
    else (p, .accepted false)
  | .pushFront s =>
    if s ∈ p.detached then (⟨s :: p.recency, p.free, p.detached.erase s⟩, .accepted true)
    else (p, .accepted false)
  | .moveToFront s =>
    if s ∈ p.recency then (⟨s :: p.recency.erase s, p.free, p.detached⟩, .accepted true)
    else (p, .accepted false)
  | .unlink s =>
    if s ∈ p.recency then (⟨p.recency.erase s, p.free, s :: p.detached⟩, .accepted true)
    else (p, .accepted false)

def slots (p : Lists) : List Slot := p.recency ++ (p.free ++ p.detached)

end Lists

def replay {σ : Type} (act : σ → Operation → σ × Answer) :
    σ → List Operation → σ × List Answer
  | x, [] => (x, [])
  | x, o :: os =>
    let (x, answer) := act x o
    let (x, answers) := replay act x os
    (x, answer :: answers)

namespace Lists

variable {p : Lists} {s : Slot}

section Slots

theorem mem_slots : s ∈ p.slots ↔ s ∈ p.recency ∨ s ∈ p.free ∨ s ∈ p.detached := by
  rw [slots, List.mem_append, List.mem_append]

theorem mem_slots_ofCapacity {n : Nat} :
    s ∈ (ofCapacity n).slots ↔ 1 ≤ s.index ∧ s.index ≤ n := by
  obtain ⟨i⟩ := s
  have placed : ⟨i⟩ ∈ (ofCapacity n).slots ↔ i < n := by simp [slots, ofCapacity]
  rw [placed]
  exact (and_iff_right (Nat.le_add_left 1 i)).symm

theorem perm_erase (mem : s ∈ p.recency) (rest : List Slot) :
    (p.recency.erase s ++ s :: rest).Perm (p.recency ++ rest) :=
  List.perm_middle.trans ((List.perm_cons_erase mem).symm.append_right rest)

theorem perm_attach (mem : s ∈ p.detached) :
    (s :: (p.free ++ p.detached.erase s)).Perm (p.free ++ p.detached) :=
  List.perm_middle.symm.trans ((List.perm_cons_erase mem).symm.append_left p.free)

theorem not_detached (nodup : p.slots.Nodup) (mem : s ∈ p.recency) : s ∉ p.detached :=
  fun detached => (List.nodup_append'.1 nodup).2.2 mem (List.mem_append_right p.free detached)

theorem not_detached_of_free (nodup : p.slots.Nodup) (mem : s ∈ p.free) : s ∉ p.detached :=
  List.disjoint_of_nodup_append (List.nodup_append'.1 nodup).2.1 mem

theorem perm_act (nodup : p.slots.Nodup) (o : Operation) : (p.act o).1.slots.Perm p.slots := by
  cases o with
  | popFree =>
    rw [act]
    split
    · rw [slots, slots, ‹p.free = _›]
      exact List.perm_middle.append_left p.recency
    · exact .refl _
  | pushFree s =>
    rw [act]
    split
    · rcases ‹s ∈ p.recency ∨ s ∈ p.detached› with linked | detached
      · rw [List.erase_of_not_mem (not_detached nodup linked)]
        exact perm_erase linked _
      · rw [List.erase_of_not_mem fun linked => not_detached nodup linked detached]
        exact (perm_attach detached).append_left p.recency
    · exact .refl _
  | pushFront s =>
    rw [act]
    split
    · exact List.perm_middle.symm.trans ((perm_attach ‹_›).append_left p.recency)
    · exact .refl _
  | moveToFront s =>
    rw [act]
    split
    · exact (List.perm_cons_erase ‹_›).symm.append_right _
    · exact .refl _
  | unlink s =>
    rw [act]
    split
    · exact (List.perm_middle.append_left _).trans (perm_erase ‹_› _)
    · exact .refl _

end Slots

end Lists

section Refused

variable {l : Links} {linked free : List Slot} {s : Slot}

theorem Threads.isSome_unlink? (h : l.Threads linked free) :
    (l.unlink? s).isSome = true ↔ s ∈ linked := by
  rw [h.linked_iff, unlink?]
  cases l.nodes[s]? with
  | none => simp
  | some node => cases node <;> simp

theorem Threads.isSome_moveToFront? (h : l.Threads linked free) :
    (l.moveToFront? s).isSome = true ↔ s ∈ linked := by
  rw [h.linked_iff, moveToFront?]
  cases l.nodes[s]? with
  | none => simp
  | some node => cases node <;> simp [apply_ite Option.isSome]

theorem isSome_pushFront? : (l.pushFront? s).isSome = true ↔ l.nodes[s]? = some .detached := by
  rw [pushFront?]
  cases l.nodes[s]? with
  | none => simp
  | some node => cases node <;> simp

theorem Threads.isSome_pushFree? (h : l.Threads linked free) :
    (l.pushFree? s).isSome = true ↔ s ∈ linked ∨ l.nodes[s]? = some .detached := by
  rw [h.linked_iff, pushFree?]
  cases l.nodes[s]? with
  | none => simp
  | some node => cases node <;> simp

end Refused

structure Threading (n : Nat) (l : Links) (p : Lists) : Prop where
  threads : l.Threads p.recency p.free
  capacity : l.capacity = n
  slots : p.slots.Perm (Lists.ofCapacity n).slots

namespace Threading

variable {n : Nat} {l l' : Links} {p p' : Lists} {s : Slot}

theorem nodup (h : Threading n l p) : p.slots.Nodup := by
  rw [h.slots.nodup_iff, Lists.slots]
  simpa [Lists.ofCapacity] using (threads_ofCapacity n).nodup_free

theorem mem_slots (h : Threading n l p) : s ∈ p.slots ↔ s.offset < l.capacity := by
  rw [h.slots.mem_iff, Lists.mem_slots_ofCapacity, h.capacity, Slot.index]
  omega

theorem detached_iff (h : Threading n l p) :
    s ∈ p.detached ↔ l.nodes[s]? = some .detached := by
  constructor
  · intro detached
    have range := h.mem_slots.1 (Lists.mem_slots.2 (.inr (.inr detached)))
    obtain ⟨node, e⟩ := Arena.some_of_lt range
    rcases h.threads.other s node e with linked | free | rfl
    · exact absurd detached (Lists.not_detached h.nodup linked)
    · exact absurd detached (Lists.not_detached_of_free h.nodup free)
    · exact e
  · intro e
    have range : s.offset < l.capacity := Arena.lt_of_some e
    have placed := Lists.mem_slots.1 (h.mem_slots.2 range)
    exact (placed.resolve_left (h.threads.not_linked_of_detached e)).resolve_left
      (h.threads.not_free_of_detached e)

end Threading

section Act

variable {n : Nat} {l : Links} {p q : Lists}

theorem Threads.attempt {done? : Option Links} {cond : Prop} [Decidable cond]
    (h : l.Threads p.recency p.free) (agrees : done?.isSome = true ↔ cond)
    (moved : cond → (done?.getD l).Threads q.recency q.free) :
    (l.attempt done?).1.Threads
      (if cond then (q, Answer.accepted true) else (p, .accepted false)).1.recency
      (if cond then (q, Answer.accepted true) else (p, .accepted false)).1.free ∧
    (l.attempt done?).2 = (if cond then (q, Answer.accepted true) else (p, .accepted false)).2 := by
  by_cases holds : cond
  · rw [if_pos holds]
    exact ⟨moved holds, congrArg Answer.accepted (agrees.2 holds)⟩
  · rw [if_neg holds]
    have refused : done? = none := Option.not_isSome_iff_eq_none.1 (mt agrees.1 holds)
    subst refused
    exact ⟨h, rfl⟩

theorem capacity_act (l : Links) (o : Operation) : (l.act o).1.capacity = l.capacity := by
  cases o with
  | popFree =>
    rw [act]
    split
    · exact capacity_popFree? ‹_›
    · rfl
  | pushFree s => exact capacity_pushFree
  | pushFront s => exact capacity_pushFront
  | moveToFront s => exact capacity_moveToFront
  | unlink s => exact capacity_unlink

namespace Threading

theorem threads_act (h : Threading n l p) (o : Operation) :
    (l.act o).1.Threads (p.act o).1.recency (p.act o).1.free ∧ (l.act o).2 = (p.act o).2 := by
  have threads := h.threads
  cases o with
  | popFree =>
    rw [act, Lists.act]
    cases free : p.free with
    | nil =>
      rw [free] at threads
      rw [threads.popFree?_nil]
      exact ⟨h.threads, rfl⟩
    | cons s rest =>
      rw [free] at threads
      obtain ⟨l', popped, threads', -⟩ := threads.popFree?_cons
      rw [popped]
      exact ⟨threads', rfl⟩
  | pushFree s =>
    refine threads.attempt (by rw [threads.isSome_pushFree?, h.detached_iff]) ?_
    rintro (linked | detached)
    · exact threads.pushFree_linked linked
    · rw [List.erase_of_not_mem fun linked => Lists.not_detached h.nodup linked detached]
      exact threads.pushFree (h.detached_iff.1 detached)
  | pushFront s =>
    refine threads.attempt (by rw [isSome_pushFront?, h.detached_iff]) fun detached => ?_
    exact threads.pushFront (h.detached_iff.1 detached)
  | moveToFront s => exact threads.attempt threads.isSome_moveToFront? threads.moveToFront
  | unlink s =>
    exact threads.attempt threads.isSome_unlink? fun linked => (threads.unlink linked).1

theorem act (h : Threading n l p) (o : Operation) :
    Threading n (l.act o).1 (p.act o).1 ∧ (l.act o).2 = (p.act o).2 := by
  obtain ⟨threads, answer⟩ := h.threads_act o
  exact ⟨⟨threads, (capacity_act l o).trans h.capacity, (Lists.perm_act h.nodup o).trans h.slots⟩,
    answer⟩

theorem replay (h : Threading n l p) (os : List Operation) :
    Threading n (replay Links.act l os).1 (replay Lists.act p os).1 ∧
      (replay Links.act l os).2 = (replay Lists.act p os).2 := by
  induction os generalizing l p with
  | nil => exact ⟨h, rfl⟩
  | cons o os ih =>
    obtain ⟨next, answer⟩ := h.act o
    obtain ⟨last, answers⟩ := ih next
    exact ⟨last, congrArg₂ List.cons answer answers⟩

end Threading

theorem threading_ofCapacity (n : Nat) : Threading n (ofCapacity n) (.ofCapacity n) :=
  ⟨threads_ofCapacity n, capacity_ofCapacity n, .refl _⟩

end Act

/-- The lists are what can be read off the links. A walk of as many nodes as there are slots, or
more, ends with the list. -/
structure Reads (l : Links) (n : Nat) (p : Lists) : Prop where
  nodup : p.slots.Nodup
  mem_iff : ∀ s, s ∈ p.slots ↔ 1 ≤ s.index ∧ s.index ≤ n
  forward : ∀ fuel, n ≤ fuel → l.walk Link.next? fuel l.head = p.recency
  backward : ∀ fuel, n ≤ fuel → l.walk Link.prev? fuel l.tail = p.recency.reverse
  recency : l.recency = p.recency
  oldestFirst : l.oldestFirst = p.recency.reverse
  freeStack : l.freeStack = p.free
  head : l.head = p.recency.head?
  tail : l.tail = p.recency.getLast?
  length : l.length = p.recency.length
  isEmpty : l.isEmpty = p.recency.isEmpty
  freeLength : l.freeLength = p.free.length
  capacity : l.capacity = n
  isLinked : ∀ s, l.isLinked s = true ↔ s ∈ p.recency
  isFree : ∀ s, l.isFree s = true ↔ s ∈ p.free
  detached : ∀ s, l.nodes[s]? = some .detached ↔ s ∈ p.detached

theorem Threading.reads {n : Nat} {l : Links} {p : Lists} (h : Threading n l p) : l.Reads n p := by
  have threads := h.threads
  have enough : p.recency.length ≤ n := by
    rw [← h.capacity]
    exact length_le_capacity threads.nodup_linked fun _ => threads.lt_of_linked
  exact {
    nodup := h.nodup
    mem_iff s := by rw [h.slots.mem_iff, Lists.mem_slots_ofCapacity]
    forward fuel le := by
      rw [threads.head]
      exact walk_chain threads.chain (Nat.le_trans enough le)
    backward fuel le := by
      rw [threads.tail]
      exact walk_chain_back threads.chain (Nat.le_trans enough le)
    recency := threads.recency_eq
    oldestFirst := threads.oldestFirst_eq
    freeStack := threads.freeStack_eq
    head := threads.head
    tail := threads.tail
    length := threads.length
    isEmpty := by
      rw [isEmpty, threads.length]
      cases p.recency <;> rfl
    freeLength := threads.freeLength
    capacity := h.capacity
    isLinked _ := threads.isLinked_iff
    isFree _ := threads.isFree_iff
    detached _ := h.detached_iff.symm
  }

/-- Links and lists that start out free answer every run of operations alike, and stay the same
lists. -/
theorem replay_ofCapacity (n : Nat) (os : List Operation) :
    (replay act (ofCapacity n) os).1.Reads n (replay Lists.act (.ofCapacity n) os).1 ∧
      (replay act (ofCapacity n) os).2 = (replay Lists.act (.ofCapacity n) os).2 := by
  obtain ⟨threading, answers⟩ := (threading_ofCapacity n).replay os
  exact ⟨threading.reads, answers⟩

example : (replay Lists.act (.ofCapacity 1)
    [.popFree, .pushFree ⟨7⟩, .pushFront ⟨0⟩, .pushFront ⟨0⟩]).2 =
      [.popped (some ⟨0⟩), .accepted false, .accepted true, .accepted false] := by decide

end Links

end Arbiter
