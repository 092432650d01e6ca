import Arbiter.Proofs.Links.Chain
import Mathlib.Data.List.Induction
import Mathlib.Data.List.Perm.Subperm

/-!
The links of a pool as two lists, the recency list and the free stack. Each operation acts on the
two lists as its name says, and walking the links gives the lists back.
-/

namespace Arbiter

namespace Links

/-- The recency list of `l` is `linked` and its free stack is `free`; every other slot is
detached. -/
structure Threads (l : Links) (linked free : List Slot) : Prop where
  head : l.head = linked.head?
  tail : l.tail = linked.getLast?
  top : l.top = free.head?
  chain : Chain l.nodes none linked none
  stack : Stack l.nodes free
  nodup_linked : linked.Nodup
  nodup_free : free.Nodup
  length : l.length = linked.length
  freeLength : l.freeLength = free.length
  other : ∀ s node, l.nodes[s]? = some node → s ∈ linked ∨ s ∈ free ∨ node = .detached

namespace Threads

variable {l : Links} {linked free : List Slot} {s : Slot}

theorem linked_iff (h : l.Threads linked free) :
    s ∈ linked ↔ ∃ p n, l.nodes[s]? = some (.linked p n) := by
  refine ⟨h.chain.linked_of_mem, ?_⟩
  rintro ⟨p, n, e⟩
  rcases h.other s _ e with hs | hs | hs
  · exact hs
  · obtain ⟨_, e'⟩ := h.stack.free_of_mem hs
    cases e.symm.trans e'
  · cases hs

theorem free_iff (h : l.Threads linked free) : s ∈ free ↔ ∃ n, l.nodes[s]? = some (.free n) := by
  refine ⟨h.stack.free_of_mem, ?_⟩
  rintro ⟨n, e⟩
  rcases h.other s _ e with hs | hs | hs
  · obtain ⟨_, _, e'⟩ := h.chain.linked_of_mem hs
    cases e.symm.trans e'
  · exact hs
  · cases hs

theorem isLinked_iff (h : l.Threads linked free) : l.isLinked s = true ↔ s ∈ linked := by
  rw [h.linked_iff, isLinked]
  cases l.nodes[s]? with
  | none => simp
  | some node => cases node <;> simp [Link.isLinked]

theorem isFree_iff (h : l.Threads linked free) : l.isFree s = true ↔ s ∈ free := by
  rw [h.free_iff, isFree]
  cases l.nodes[s]? with
  | none => simp
  | some node => cases node <;> simp [Link.isFree]

theorem not_linked_of_detached (h : l.Threads linked free) (hs : l.nodes[s]? = some .detached) :
    s ∉ linked := by
  rw [h.linked_iff]
  rintro ⟨p, n, e⟩
  cases hs.symm.trans e

theorem not_free_of_detached (h : l.Threads linked free) (hs : l.nodes[s]? = some .detached) :
    s ∉ free := by
  rw [h.free_iff]
  rintro ⟨n, e⟩
  cases hs.symm.trans e

theorem disjoint (h : l.Threads linked free) (hs : s ∈ linked) : s ∉ free := by
  rw [h.linked_iff] at hs
  rw [h.free_iff]
  rintro ⟨n, e⟩
  obtain ⟨p, n', e'⟩ := hs
  cases e.symm.trans e'

end Threads

theorem nodes_detach (l : Links) (s : Slot) (prev next : Option Slot) :
    (l.detach s prev next).nodes =
      (pointPrev (pointNext l.nodes prev next) prev next).set s .detached := by
  cases prev <;> cases next <;> rfl

theorem head_detach (l : Links) (s : Slot) (prev next : Option Slot) :
    (l.detach s prev next).head = if prev = none then next else l.head := by
  cases prev <;> cases next <;> rfl

theorem tail_detach (l : Links) (s : Slot) (prev next : Option Slot) :
    (l.detach s prev next).tail = if next = none then prev else l.tail := by
  cases prev <;> cases next <;> rfl

theorem top_detach (l : Links) (s : Slot) (prev next : Option Slot) :
    (l.detach s prev next).top = l.top := by
  cases prev <;> cases next <;> rfl

theorem length_detach (l : Links) (s : Slot) (prev next : Option Slot) :
    (l.detach s prev next).length = l.length - 1 := by
  cases prev <;> cases next <;> rfl

theorem freeLength_detach (l : Links) (s : Slot) (prev next : Option Slot) :
    (l.detach s prev next).freeLength = l.freeLength := by
  cases prev <;> cases next <;> rfl

namespace Threads

variable {l : Links} {linked free : List Slot} {s : Slot}

theorem node_of_linked {before after : List Slot} (h : l.Threads (before ++ s :: after) free) :
    l.nodes[s]? = some (.linked before.getLast? after.head?) := by
  have chain := (chain_append.1 h.chain).2.1
  rwa [Option.or_none, Option.or_none] at chain

theorem detach {before after : List Slot} (h : l.Threads (before ++ s :: after) free) :
    (l.detach s before.getLast? after.head?).Threads (before ++ after) free := by
  have nodup := h.nodup_linked
  rw [List.nodup_middle, List.nodup_cons, List.nodup_append'] at nodup
  obtain ⟨hs, nodup_before, nodup_after, apart⟩ := nodup
  rw [List.mem_append, not_or] at hs
  obtain ⟨first, second⟩ := chain_append.1 h.chain
  have same : ∀ t, t ≠ s → t ∉ before → t ∉ after →
      (l.detach s before.getLast? after.head?).nodes[t]? = l.nodes[t]? := by
    intro t ts tb ta
    rw [nodes_detach, Arena.getElem?_set, if_neg ts.symm,
      getElem?_pointPrev_of_ne fun e => ta (List.mem_of_head? e),
      getElem?_pointNext_of_ne fun e => tb (List.mem_of_getLast? e)]
  refine ⟨?_, ?_, ?_, ?_, ?_, ?_, h.nodup_free, ?_, ?_, ?_⟩
  · rw [head_detach, h.head]
    cases before <;> simp
  · rw [tail_detach, h.tail]
    cases after <;> simp [List.getLast?_cons]
  · rw [top_detach, h.top]
  · rw [chain_append, nodes_detach, Option.or_none, Option.or_none]
    constructor
    · refine (first.pointNext nodup_before after.head?).congr fun t ht => ?_
      rw [Arena.getElem?_set, if_neg (ne_of_mem_of_not_mem ht hs.1).symm,
        getElem?_pointPrev_of_ne]
      intro e
      exact apart ht (List.mem_of_head? e)
    · have moved : Chain (pointNext l.nodes before.getLast? after.head?) (some s) after none := by
        refine second.2.congr fun t ht => getElem?_pointNext_of_ne ?_
        intro e
        exact apart (List.mem_of_getLast? e) ht
      refine (moved.pointPrev nodup_after before.getLast?).congr fun t ht => ?_
      rw [Arena.getElem?_set, if_neg (ne_of_mem_of_not_mem ht hs.2).symm]
  · refine h.stack.congr fun t ht => ?_
    have out : t ∉ before ++ s :: after := fun hl => h.disjoint hl ht
    simp only [List.mem_append, List.mem_cons, not_or] at out
    exact same t out.2.1 out.1 out.2.2
  · rw [List.nodup_append']
    exact ⟨nodup_before, nodup_after, apart⟩
  · simp [length_detach, h.length]
  · rw [freeLength_detach, h.freeLength]
  · intro t node ht
    by_cases ts : t = s
    · subst ts
      rw [nodes_detach, Arena.getElem?_set, if_pos rfl, Option.map_eq_some_iff] at ht
      obtain ⟨_, _, rfl⟩ := ht
      exact .inr (.inr rfl)
    · by_cases hl : t ∈ before ++ after
      · exact .inl hl
      · rw [List.mem_append, not_or] at hl
        rw [same t ts hl.1 hl.2] at ht
        rcases h.other t node ht with hm | hm
        · simp [ts, hl.1, hl.2] at hm
        · exact .inr hm

theorem detached_detach {before after : List Slot} (h : l.Threads (before ++ s :: after) free) :
    (l.detach s before.getLast? after.head?).nodes[s]? = some .detached := by
  have nodup := h.nodup_linked
  rw [List.nodup_middle, List.nodup_cons, List.mem_append, not_or] at nodup
  rw [nodes_detach, Arena.getElem?_set, if_pos rfl,
    getElem?_pointPrev_of_ne fun e => nodup.1.2 (List.mem_of_head? e),
    getElem?_pointNext_of_ne fun e => nodup.1.1 (List.mem_of_getLast? e), h.node_of_linked]
  rfl

theorem attachFront (h : l.Threads linked free) (hs : l.nodes[s]? = some .detached) :
    (l.attachFront s).Threads (s :: linked) free := by
  have not_linked := h.not_linked_of_detached hs
  have not_free := h.not_free_of_detached hs
  have nodes : (l.attachFront s).nodes =
      pointPrev (l.nodes.set s (.linked none l.head)) (some s) l.head := by
    unfold Links.attachFront
    cases l.head <;> rfl
  have same : ∀ t, t ≠ s → t ∉ linked → (l.attachFront s).nodes[t]? = l.nodes[t]? := by
    intro t ts tl
    rw [nodes, getElem?_pointPrev_of_ne, Arena.getElem?_set, if_neg ts.symm]
    intro e
    rw [h.head] at e
    exact tl (List.mem_of_head? e)
  refine ⟨?_, ?_, ?_, ?_, ?_, List.nodup_cons.2 ⟨not_linked, h.nodup_linked⟩, h.nodup_free,
    ?_, ?_, ?_⟩
  · unfold Links.attachFront
    cases l.head <;> rfl
  · have head := h.head
    unfold Links.attachFront
    cases linked with
    | nil => simp [head]
    | cons t linked => simp [head, h.tail]
  · unfold Links.attachFront
    cases l.head <;> exact h.top
  · rw [nodes]
    constructor
    · rw [getElem?_pointPrev_of_ne, Arena.getElem?_set, if_pos rfl, hs, h.head, Option.or_none]
      · rfl
      · intro e
        rw [h.head] at e
        exact not_linked (List.mem_of_head? e)
    · rw [h.head]
      have moved : Chain (l.nodes.set s (.linked none linked.head?)) none linked none := by
        refine h.chain.congr fun t ht => ?_
        rw [Arena.getElem?_set, if_neg (ne_of_mem_of_not_mem ht not_linked).symm]
      exact moved.pointPrev h.nodup_linked (some s)
  · refine h.stack.congr fun t ht => same t (ne_of_mem_of_not_mem ht not_free) ?_
    intro hl
    exact h.disjoint hl ht
  · unfold Links.attachFront
    cases l.head <;> simp [h.length]
  · unfold Links.attachFront
    cases l.head <;> exact h.freeLength
  · intro t node ht
    by_cases hl : t ∈ s :: linked
    · exact .inl hl
    · simp only [List.mem_cons, not_or] at hl
      rw [same t hl.1 hl.2] at ht
      exact .inr ((h.other t node ht).resolve_left hl.2)

theorem stack_push (h : l.Threads linked free) (hs : l.nodes[s]? = some .detached) :
    (l.stack s).Threads linked (s :: free) := by
  have not_linked := h.not_linked_of_detached hs
  have not_free := h.not_free_of_detached hs
  have same : ∀ t, t ≠ s → (l.stack s).nodes[t]? = l.nodes[t]? := by
    intro t ts
    rw [Links.stack, Arena.getElem?_set, if_neg ts.symm]
  refine ⟨h.head, h.tail, rfl, ?_, ⟨?_, ?_⟩, h.nodup_linked,
    List.nodup_cons.2 ⟨not_free, h.nodup_free⟩, h.length, ?_, ?_⟩
  · exact h.chain.congr fun t ht => same t (ne_of_mem_of_not_mem ht not_linked)
  · simp [Links.stack, Arena.getElem?_set, hs, h.top]
  · exact h.stack.congr fun t ht => same t (ne_of_mem_of_not_mem ht not_free)
  · simp [Links.stack, h.freeLength]
  · intro t node ht
    by_cases ts : t = s
    · exact .inr (.inl (ts ▸ List.mem_cons_self))
    · rw [same t ts] at ht
      exact (h.other t node ht).imp_right (.imp_left (List.mem_cons_of_mem _))

end Threads

namespace Threads

variable {l : Links} {linked free : List Slot} {s : Slot}

theorem erase_middle {before after : List Slot} (h : l.Threads (before ++ s :: after) free) :
    (before ++ s :: after).erase s = before ++ after := by
  have nodup := h.nodup_linked
  rw [List.nodup_middle, List.nodup_cons, List.mem_append, not_or] at nodup
  rw [List.erase_append_right _ nodup.1.1, List.erase_cons_head]

theorem unlink (h : l.Threads linked free) (hs : s ∈ linked) :
    (l.unlink s).Threads (linked.erase s) free ∧ (l.unlink s).nodes[s]? = some .detached := by
  obtain ⟨before, after, rfl⟩ := List.append_of_mem hs
  rw [Links.unlink, unlink?, h.node_of_linked, h.erase_middle]
  exact ⟨h.detach, h.detached_detach⟩

theorem moveToFront (h : l.Threads linked free) (hs : s ∈ linked) :
    (l.moveToFront s).Threads (s :: linked.erase s) free := by
  obtain ⟨before, after, rfl⟩ := List.append_of_mem hs
  rw [Links.moveToFront, moveToFront?, h.node_of_linked, h.erase_middle]
  by_cases first : l.head = some s
  · have nodup := h.nodup_linked
    rw [List.nodup_middle, List.nodup_cons, List.mem_append, not_or] at nodup
    cases before with
    | nil => simpa [first] using h
    | cons t before =>
      rw [h.head] at first
      cases first
      exact absurd List.mem_cons_self nodup.1.1
  · simpa [first] using h.detach.attachFront h.detached_detach

theorem pushFront (h : l.Threads linked free) (hs : l.nodes[s]? = some .detached) :
    (l.pushFront s).Threads (s :: linked) free := by
  rw [Links.pushFront, pushFront?, hs]
  exact h.attachFront hs

theorem pushFree (h : l.Threads linked free) (hs : l.nodes[s]? = some .detached) :
    (l.pushFree s).Threads linked (s :: free) := by
  rw [Links.pushFree, pushFree?, hs]
  exact h.stack_push hs

theorem pushFree_linked (h : l.Threads linked free) (hs : s ∈ linked) :
    (l.pushFree s).Threads (linked.erase s) (s :: free) := by
  obtain ⟨before, after, rfl⟩ := List.append_of_mem hs
  rw [Links.pushFree, pushFree?, h.node_of_linked, h.erase_middle]
  exact h.detach.stack_push h.detached_detach

theorem popFree?_nil (h : l.Threads linked []) : l.popFree? = none := by
  rw [popFree?, h.top]
  rfl

theorem popFree?_cons (h : l.Threads linked (s :: free)) :
    ∃ l', l.popFree? = some (s, l') ∧ l'.Threads linked free ∧ l'.nodes[s]? = some .detached := by
  have nodup := List.nodup_cons.1 h.nodup_free
  have same : ∀ t, t ≠ s → (l.nodes.set s .detached)[t]? = l.nodes[t]? := by
    intro t ts
    rw [Arena.getElem?_set, if_neg ts.symm]
  refine ⟨{ l with nodes := l.nodes.set s .detached, top := free.head?,
                   freeLength := l.freeLength - 1 }, ?_,
    ⟨h.head, h.tail, rfl, ?_, ?_, h.nodup_linked, nodup.2, h.length, ?_, ?_⟩, ?_⟩
  · rw [popFree?, h.top]
    simp only [List.head?_cons, h.stack.1]
    rfl
  · refine h.chain.congr fun t ht => same t ?_
    rintro rfl
    exact h.disjoint ht List.mem_cons_self
  · exact h.stack.2.congr fun t ht => same t (ne_of_mem_of_not_mem ht nodup.1)
  · simp [h.freeLength]
  · intro t node ht
    by_cases ts : t = s
    · subst ts
      rw [Arena.getElem?_set, if_pos rfl, h.stack.1] at ht
      exact .inr (.inr (Option.some.inj ht).symm)
    · rw [same t ts] at ht
      exact (h.other t node ht).imp_right (.imp_left fun hm => (List.mem_cons.1 hm).resolve_left ts)
  · simp [Arena.getElem?_set, h.stack.1]

end Threads

theorem stack_ofCapacity (n : Nat) : Stack (ofCapacity n).nodes ((List.range n).map .mk) := by
  have from_ : ∀ k m, k + m = n → Stack (ofCapacity n).nodes ((List.range' k m).map .mk) := by
    intro k m
    induction m generalizing k with
    | zero => intro _; trivial
    | succ m ih =>
      intro e
      rw [List.range'_succ, List.map_cons]
      refine ⟨?_, ih (k + 1) (by omega)⟩
      rw [ofCapacity, Arena.getElem?_ofFn, if_pos (by simp; omega)]
      cases m with
      | zero => simp; omega
      | succ m => simp [List.range'_succ]; omega
  rw [List.range_eq_range']
  exact from_ 0 n (by omega)

theorem threads_ofCapacity (n : Nat) :
    (ofCapacity n).Threads [] ((List.range n).map .mk) := by
  refine ⟨rfl, rfl, ?_, trivial, stack_ofCapacity n, List.nodup_nil, ?_, rfl, ?_, ?_⟩
  · cases n with
    | zero => rfl
    | succ n => simp [ofCapacity, List.range_succ_eq_map]
  · exact List.Nodup.map (fun _ _ e => (Slot.mk.injEq _ _ ▸ e)) List.nodup_range
  · simp [ofCapacity]
  · intro s node hs
    rw [ofCapacity, Arena.getElem?_ofFn] at hs
    split at hs
    · exact .inr (.inl (List.mem_map.2 ⟨s.offset, List.mem_range.2 ‹_›, rfl⟩))
    · cases hs

section Views

variable {l : Links}

theorem walk_chain {prev : Option Slot} {slots : List Slot} {fuel : Nat}
    (h : Chain l.nodes prev slots none) (le : slots.length ≤ fuel) :
    l.walk Link.next? fuel slots.head? = slots := by
  induction slots generalizing prev fuel with
  | nil => cases fuel <;> rfl
  | cons s slots ih =>
    cases fuel with
    | zero => cases le
    | succ fuel =>
      have rest := ih h.2 (Nat.le_of_succ_le_succ le)
      simp [walk, h.1, Link.next?, rest]

theorem walk_chain_back {slots : List Slot} {next : Option Slot} {fuel : Nat}
    (h : Chain l.nodes none slots next) (le : slots.length ≤ fuel) :
    l.walk Link.prev? fuel slots.getLast? = slots.reverse := by
  induction slots using List.reverseRecOn generalizing next fuel with
  | nil => cases fuel <;> rfl
  | append_singleton slots s ih =>
    rw [List.length_append, List.length_singleton] at le
    cases fuel with
    | zero => cases le
    | succ fuel =>
      obtain ⟨first, last⟩ := chain_append.1 h
      have rest := ih first (Nat.le_of_succ_le_succ le)
      simp [walk, last.1, Link.prev?, rest]

theorem walk_stack {slots : List Slot} {fuel : Nat} (h : Stack l.nodes slots)
    (le : slots.length ≤ fuel) : l.walk Link.next? fuel slots.head? = slots := by
  induction slots generalizing fuel with
  | nil => cases fuel <;> rfl
  | cons s slots ih =>
    cases fuel with
    | zero => cases le
    | succ fuel =>
      have rest := ih h.2 (Nat.le_of_succ_le_succ le)
      simp [walk, h.1, Link.next?, rest]

theorem length_le_capacity {slots : List Slot} (nodup : slots.Nodup)
    (range : ∀ s ∈ slots, s.offset < l.capacity) : slots.length ≤ l.capacity := by
  have sub : slots ⊆ (List.range l.capacity).map .mk := by
    intro s hs
    exact List.mem_map.2 ⟨s.offset, List.mem_range.2 (range s hs), rfl⟩
  simpa using (nodup.subperm sub).length_le

end Views

namespace Threads

variable {l : Links} {linked free : List Slot} {s : Slot}

theorem lt_of_linked (h : l.Threads linked free) (hs : s ∈ linked) : s.offset < l.capacity := by
  obtain ⟨_, _, e⟩ := h.linked_iff.1 hs
  exact Arena.lt_of_some e

theorem lt_of_free (h : l.Threads linked free) (hs : s ∈ free) : s.offset < l.capacity := by
  obtain ⟨_, e⟩ := h.free_iff.1 hs
  exact Arena.lt_of_some e

theorem recency_eq (h : l.Threads linked free) : l.recency = linked := by
  rw [recency, h.head]
  exact walk_chain h.chain (length_le_capacity h.nodup_linked fun _ => h.lt_of_linked)

theorem oldestFirst_eq (h : l.Threads linked free) : l.oldestFirst = linked.reverse := by
  rw [oldestFirst, h.tail]
  exact walk_chain_back h.chain (length_le_capacity h.nodup_linked fun _ => h.lt_of_linked)

theorem freeStack_eq (h : l.Threads linked free) : l.freeStack = free := by
  rw [freeStack, h.top]
  exact walk_stack h.stack (length_le_capacity h.nodup_free fun _ => h.lt_of_free)

end Threads

section Capacity

variable {l : Links} {s : Slot}

@[simp] theorem capacity_ofCapacity (n : Nat) : (ofCapacity n).capacity = n :=
  Arena.capacity_ofFn n _

theorem capacity_detach (prev next : Option Slot) :
    (l.detach s prev next).capacity = l.capacity := by
  cases prev <;> cases next <;> simp [capacity, nodes_detach, pointNext, pointPrev]

theorem capacity_attachFront : (l.attachFront s).capacity = l.capacity := by
  rw [attachFront]
  cases l.head <;> simp [capacity]

theorem capacity_stack : (l.stack s).capacity = l.capacity := by
  simp [capacity, stack]

@[simp] theorem capacity_unlink : (l.unlink s).capacity = l.capacity := by
  unfold unlink unlink?
  split <;> simp [capacity_detach]

@[simp] theorem capacity_pushFree : (l.pushFree s).capacity = l.capacity := by
  unfold pushFree pushFree?
  split <;> simp [capacity_detach, capacity_stack]

@[simp] theorem capacity_pushFront : (l.pushFront s).capacity = l.capacity := by
  unfold pushFront pushFront?
  split <;> simp [capacity_attachFront]

@[simp] theorem capacity_moveToFront : (l.moveToFront s).capacity = l.capacity := by
  unfold moveToFront moveToFront?
  split
  · split <;> simp [capacity_attachFront, capacity_detach]
  · simp

theorem capacity_popFree? {l' : Links} (h : l.popFree? = some (s, l')) :
    l'.capacity = l.capacity := by
  unfold popFree? at h
  split at h
  · cases h
  · split at h
    · cases h
    · cases h
      simp [capacity]

end Capacity

end Links

end Arbiter
