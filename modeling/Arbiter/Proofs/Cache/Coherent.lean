import Arbiter.Cache
import Arbiter.Proofs.Links.Threads
import Mathlib.Logic.Function.Basic

/-!
Key table, slot owners, links and cells of a cache in step with each other, and what each of the
small operations does to them. Inside a step one slot may be a hole: in nobody's hands, on neither
of the lists. Between steps there is none.
-/

namespace Arbiter

namespace Cache

universe u

variable {α : Type u}

structure Coherent (c : Cache α) (linked free : List Slot) (hole : Option Slot) : Prop where
  threads : c.links.Threads linked free
  owners_capacity : c.owners.capacity = c.capacity
  links_capacity : c.links.capacity = c.capacity
  placed : ∀ s : Slot, s.offset < c.capacity → s ∈ linked ∨ s ∈ free ∨ hole = some s
  detached : ∀ s, hole = some s → c.links.nodes[s]? = some .detached
  table_iff : ∀ (key : String) (s : Slot), c.table[key]? = some s ↔ c.owner? s = some key
  linked_iff : ∀ s, s ∈ linked ↔ c.owner? s ≠ none
  vacant_iff : ∀ s, (c.cell s).content = .vacant ↔ c.owner? s = none

/-- In order, with no slot in between. -/
def Steady (c : Cache α) : Prop := c.Coherent c.links.recency c.links.freeStack none

/-- What can be told of a cache without looking at its arrays. -/
structure Shows (c : Cache α) (table : Std.TreeMap String Slot) (cell : Slot → Cell α)
    (recency free : List Slot) : Prop where
  table : c.table = table
  cell : c.cell = cell
  recency : c.links.recency = recency
  free : c.links.freeStack = free

section Reading

variable {c : Cache α} {s : Slot}

theorem cells_some (hs : s.offset < c.capacity) : c.cells[s]? = some (c.cell s) := by
  obtain ⟨cell, e⟩ := Arena.some_of_lt hs
  rw [Cache.cell, e]
  rfl

theorem cell_set (hs : s.offset < c.capacity) (x : Cell α) :
    ({ c with cells := c.cells.set s x } : Cache α).cell = Function.update c.cell s x := by
  funext t
  by_cases e : t = s
  · subst e
    rw [Function.update_self, cell, Arena.getElem?_set, if_pos rfl, cells_some hs]
    rfl
  · rw [Function.update_of_ne e, cell, Arena.getElem?_set, if_neg fun h => e h.symm]
    rfl

theorem cell_modify (hs : s.offset < c.capacity) (f : Cell α → Cell α) :
    ({ c with cells := c.cells.modify s f } : Cache α).cell =
      Function.update c.cell s (f (c.cell s)) := by
  funext t
  by_cases e : t = s
  · subst e
    rw [Function.update_self, cell, Arena.getElem?_modify, if_pos rfl, cells_some hs]
    rfl
  · rw [Function.update_of_ne e, cell, Arena.getElem?_modify, if_neg fun h => e h.symm]
    rfl

theorem cell_claim (hs : s.offset < c.capacity) :
    (c.claim s).1.cell = Function.update c.cell s (c.cell s).beginLoad := cell_set hs _

theorem cell_reset (hs : s.offset < c.capacity) :
    (c.reset s).cell = Function.update c.cell s (c.cell s).reset := cell_modify hs _

theorem cell_store (hs : s.offset < c.capacity) (value : α) (expiry : Expiry) :
    (c.store s value expiry).cell = Function.update c.cell s ((c.cell s).store value expiry) :=
  cell_modify hs _

theorem owner?_set (hs : s.offset < c.owners.capacity) (owner : Option String) :
    ({ c with owners := c.owners.set s owner } : Cache α).owner? =
      Function.update c.owner? s owner := by
  funext t
  by_cases e : t = s
  · subst e
    obtain ⟨_, e⟩ := Arena.some_of_lt hs
    rw [Function.update_self, owner?, Arena.getElem?_set, if_pos rfl, e]
    rfl
  · rw [Function.update_of_ne e, owner?, Arena.getElem?_set, if_neg fun h => e h.symm]
    rfl

end Reading

section Table

variable {table : Std.TreeMap String Slot} {owner : Slot → Option String} {key j : String}
  {s t : Slot}

theorem getElem?_insert_of_ne (h : j ≠ key) : (table.insert key s)[j]? = table[j]? := by
  simp [Std.TreeMap.getElem?_insert, h.symm]

theorem getElem?_erase_of_ne (h : j ≠ key) : (table.erase key)[j]? = table[j]? := by
  simp [Std.TreeMap.getElem?_erase, h.symm]

theorem getElem?_erase_eq_some : (table.erase key)[j]? = some s ↔ table[j]? = some s ∧ j ≠ key := by
  by_cases h : j = key
  · simp [h]
  · simp [getElem?_erase_of_ne h, h]

theorem getElem?_erase_eq_none (h : table[j]? = none) : (table.erase key)[j]? = none := by
  rw [Std.TreeMap.getElem?_erase]
  split
  · rfl
  · exact h

theorem getElem?_erase_of_slot_ne (hs : table[key]? = some s) (ht : table[j]? = some t)
    (ne : t ≠ s) : (table.erase key)[j]? = some t := by
  rw [getElem?_erase_eq_some]
  refine ⟨ht, ?_⟩
  rintro rfl
  exact ne (Option.some.inj (ht.symm.trans hs))

theorem inverse_erase (h : ∀ (j : String) (t : Slot), table[j]? = some t ↔ owner t = some j)
    (hs : table[key]? = some s) (j : String) (t : Slot) :
    (table.erase key)[j]? = some t ↔ Function.update owner s none t = some j := by
  simp only [Std.TreeMap.getElem?_erase, Std.LawfulEqCmp.compare_eq_iff_eq, Function.update_apply]
  grind

theorem inverse_insert (h : ∀ (j : String) (t : Slot), table[j]? = some t ↔ owner t = some j)
    (hk : table[key]? = none) (hs : owner s = none) (j : String) (t : Slot) :
    (table.insert key s)[j]? = some t ↔ Function.update owner s (some key) t = some j := by
  simp only [Std.TreeMap.getElem?_insert, Std.LawfulEqCmp.compare_eq_iff_eq, Function.update_apply]
  grind

end Table

namespace Coherent

variable {c : Cache α} {linked free : List Slot} {hole : Option Slot} {s t : Slot}
  {key other : String}

theorem steady (h : c.Coherent linked free none) : c.Steady := by
  rw [Steady, h.threads.recency_eq, h.threads.freeStack_eq]
  exact h

theorem shows (h : c.Coherent linked free hole) : c.Shows c.table c.cell linked free :=
  ⟨rfl, rfl, h.threads.recency_eq, h.threads.freeStack_eq⟩

theorem lt_of_linked (h : c.Coherent linked free hole) (hs : s ∈ linked) :
    s.offset < c.capacity := by
  rw [← h.links_capacity]
  exact h.threads.lt_of_linked hs

theorem lt_of_hole (h : c.Coherent linked free (some s)) : s.offset < c.capacity := by
  rw [← h.links_capacity]
  exact Arena.lt_of_some (h.detached s rfl)

theorem mapped_iff (h : c.Coherent linked free hole) :
    s ∈ linked ↔ ∃ key : String, c.table[key]? = some s := by
  rw [h.linked_iff, Option.ne_none_iff_exists']
  simp only [h.table_iff]

theorem linked_of_mapped (h : c.Coherent linked free hole) (hs : c.table[key]? = some s) :
    s ∈ linked := h.mapped_iff.2 ⟨key, hs⟩

theorem table_injective (h : c.Coherent linked free hole) (hk : c.table[key]? = some s)
    (ho : c.table[other]? = some s) : key = other := by
  rw [h.table_iff] at hk ho
  exact Option.some.inj (hk.symm.trans ho)

theorem owner?_hole (h : c.Coherent linked free (some s)) : c.owner? s = none := by
  have out := h.threads.not_linked_of_detached (h.detached s rfl)
  rw [h.linked_iff] at out
  exact Classical.not_not.1 out

theorem content_of_free (h : c.Coherent linked free hole) (hs : s ∈ free) :
    (c.cell s).content = .vacant := by
  rw [h.vacant_iff]
  by_contra owned
  exact h.threads.disjoint ((h.linked_iff s).2 owned) hs

theorem content_of_mapped (h : c.Coherent linked free hole) (hs : c.table[key]? = some s) :
    (c.cell s).content ≠ .vacant := by
  rw [Ne, h.vacant_iff, (h.table_iff key s).1 hs]
  intro e
  cases e

protected theorem record (h : c.Coherent linked free hole) (e : Event) :
    (c.record e).Coherent linked free hole :=
  ⟨h.threads, h.owners_capacity, h.links_capacity, h.placed, h.detached, h.table_iff,
    h.linked_iff, h.vacant_iff⟩

protected theorem touch (h : c.Coherent linked free none) (hs : s ∈ linked) :
    (c.touch s).Coherent (s :: linked.erase s) free none := by
  have members : ∀ t, t ∈ s :: linked.erase s ↔ t ∈ linked := by
    intro t
    exact (List.perm_cons_erase hs).mem_iff.symm
  refine ⟨h.threads.moveToFront hs, h.owners_capacity, ?_, ?_, ?_, h.table_iff, ?_, h.vacant_iff⟩
  · rw [touch, Links.capacity_moveToFront]
    exact h.links_capacity
  · intro t ht
    rw [members]
    exact h.placed t ht
  · intro t e
    cases e
  · intro t
    rw [members]
    exact h.linked_iff t

theorem write (h : c.Coherent linked free none) (hs : s ∈ linked) {cells : Arena (Cell α)}
    {x : Cell α} (cell : ({ c with cells } : Cache α).cell = Function.update c.cell s x)
    (capacity : cells.capacity = c.capacity) (hx : x.content ≠ .vacant) :
    ({ c with cells } : Cache α).Coherent linked free none := by
  refine ⟨h.threads, h.owners_capacity.trans capacity.symm, h.links_capacity.trans capacity.symm,
    ?_, h.detached, h.table_iff, h.linked_iff, ?_⟩
  · intro t ht
    exact h.placed t (capacity ▸ ht)
  · intro t
    rw [cell]
    by_cases e : t = s
    · subst e
      rw [Function.update_self]
      exact iff_of_false hx ((h.linked_iff t).1 hs)
    · rw [Function.update_of_ne e]
      exact h.vacant_iff t

protected theorem claim (h : c.Coherent linked free none) (hs : s ∈ linked) :
    (c.claim s).1.Coherent linked free none :=
  h.write hs (cell_claim (h.lt_of_linked hs)) (Arena.capacity_set _ _ _) (by simp [Cell.beginLoad])

protected theorem store (h : c.Coherent linked free none) (hs : s ∈ linked) (value : α)
    (expiry : Expiry) : (c.store s value expiry).Coherent linked free none :=
  h.write hs (cell_store (h.lt_of_linked hs) value expiry) (Arena.capacity_modify _ _ _)
    (by simp [Cell.store])

theorem unassign_eq (h : c.Coherent linked free hole) (hs : c.table[key]? = some s) :
    c.unassign s = { c with owners := c.owners.set s none, table := c.table.erase key,
                            links := c.links.unlink s } := by
  rw [unassign, (h.table_iff key s).1 hs]

theorem table_vacate (h : c.Coherent linked free hole) (hs : c.table[key]? = some s) :
    ((c.unassign s).reset s).table = c.table.erase key := by
  rw [h.unassign_eq hs]
  rfl

theorem cell_vacate (h : c.Coherent linked free hole) (hs : c.table[key]? = some s) :
    ((c.unassign s).reset s).cell = Function.update c.cell s (c.cell s).reset := by
  rw [h.unassign_eq hs]
  exact cell_reset (h.lt_of_linked (h.linked_of_mapped hs))

theorem owner?_vacate (h : c.Coherent linked free hole) (hs : c.table[key]? = some s) :
    ((c.unassign s).reset s).owner? = Function.update c.owner? s none := by
  rw [h.unassign_eq hs]
  exact owner?_set (h.owners_capacity ▸ h.lt_of_linked (h.linked_of_mapped hs)) none

theorem vacate (h : c.Coherent linked free none) (hs : c.table[key]? = some s) :
    ((c.unassign s).reset s).Coherent (linked.erase s) free (some s) := by
  have hl := h.linked_of_mapped hs
  obtain ⟨threads, detached⟩ := h.threads.unlink hl
  have capacity : ((c.unassign s).reset s).capacity = c.capacity := by
    rw [h.unassign_eq hs]
    exact Arena.capacity_modify _ _ _
  refine ⟨?_, ?_, ?_, ?_, ?_, ?_, ?_, ?_⟩
  · rw [h.unassign_eq hs]
    exact threads
  · rw [capacity, h.unassign_eq hs]
    exact (Arena.capacity_set _ _ _).trans h.owners_capacity
  · rw [capacity, h.unassign_eq hs]
    exact Links.capacity_unlink.trans h.links_capacity
  · intro t ht
    rw [capacity] at ht
    by_cases e : t = s
    · exact .inr (.inr (congrArg some e.symm))
    · rw [List.mem_erase_of_ne e]
      exact (h.placed t ht).imp_right (.imp_right nofun)
  · intro t e
    cases e
    rw [h.unassign_eq hs]
    exact detached
  · rw [h.table_vacate hs, h.owner?_vacate hs]
    exact inverse_erase h.table_iff hs
  · intro t
    rw [h.owner?_vacate hs]
    by_cases e : t = s
    · subst e
      rw [Function.update_self]
      exact iff_of_false h.threads.nodup_linked.not_mem_erase fun n => n rfl
    · rw [Function.update_of_ne e, List.mem_erase_of_ne e]
      exact h.linked_iff t
  · intro t
    rw [h.cell_vacate hs, h.owner?_vacate hs]
    by_cases e : t = s
    · subst e
      rw [Function.update_self, Function.update_self]
      exact iff_of_true rfl rfl
    · rw [Function.update_of_ne e, Function.update_of_ne e]
      exact h.vacant_iff t

theorem occupy (h : c.Coherent linked free (some s)) (unmapped : c.table[key]? = none) :
    ((c.assign s key).claim s).1.Coherent (s :: linked) free none := by
  have range := h.lt_of_hole
  have owner? : ((c.assign s key).claim s).1.owner? = Function.update c.owner? s (some key) :=
    owner?_set (h.owners_capacity ▸ range) (some key)
  have cell : ((c.assign s key).claim s).1.cell = Function.update c.cell s (c.cell s).beginLoad :=
    cell_claim (c := c.assign s key) range
  have capacity : ((c.assign s key).claim s).1.capacity = c.capacity := Arena.capacity_set _ _ _
  refine ⟨h.threads.pushFront (h.detached s rfl), ?_, ?_, ?_, nofun, ?_, ?_, ?_⟩
  · rw [capacity]
    exact (Arena.capacity_set _ _ _).trans h.owners_capacity
  · rw [capacity]
    exact Links.capacity_pushFront.trans h.links_capacity
  · intro t ht
    rw [capacity] at ht
    rcases h.placed t ht with hl | hf | e
    · exact .inl (List.mem_cons_of_mem _ hl)
    · exact .inr (.inl hf)
    · cases e
      exact .inl List.mem_cons_self
  · rw [owner?]
    exact inverse_insert h.table_iff unmapped h.owner?_hole
  · intro t
    rw [owner?]
    by_cases e : t = s
    · subst e
      rw [Function.update_self]
      exact iff_of_true List.mem_cons_self nofun
    · rw [Function.update_of_ne e, List.mem_cons, or_iff_right e]
      exact h.linked_iff t
  · intro t
    rw [owner?, cell]
    by_cases e : t = s
    · subst e
      rw [Function.update_self, Function.update_self]
      exact iff_of_false nofun nofun
    · rw [Function.update_of_ne e, Function.update_of_ne e]
      exact h.vacant_iff t

theorem pushFree (h : c.Coherent linked free (some s)) :
    ({ c with links := c.links.pushFree s } : Cache α).Coherent linked (s :: free) none := by
  refine ⟨h.threads.pushFree (h.detached s rfl), h.owners_capacity, ?_, ?_, nofun, h.table_iff,
    h.linked_iff, h.vacant_iff⟩
  · exact Links.capacity_pushFree.trans h.links_capacity
  · intro t ht
    rcases h.placed t ht with hl | hf | e
    · exact .inl hl
    · exact .inr (.inl (List.mem_cons_of_mem _ hf))
    · cases e
      exact .inr (.inl List.mem_cons_self)

theorem popFree? (h : c.Coherent linked (s :: free) none) :
    ∃ links, c.links.popFree? = some (s, links) ∧
      ({ c with links } : Cache α).Coherent linked free (some s) := by
  obtain ⟨links, popped, threads, detached⟩ := h.threads.popFree?_cons
  refine ⟨links, popped, threads, h.owners_capacity, ?_, ?_, ?_, h.table_iff, h.linked_iff,
    h.vacant_iff⟩
  · exact (Links.capacity_popFree? popped).trans h.links_capacity
  · intro t ht
    rcases h.placed t ht with hl | hf | e
    · exact .inl hl
    · cases hf with
      | head => exact .inr (.inr rfl)
      | tail _ hf => exact .inr (.inl hf)
    · cases e
  · intro t e
    cases e
    exact detached

end Coherent

theorem cell_ofCapacity (n : Nat) (s : Slot) : (ofCapacity n : Cache α).cell s = .empty := by
  rw [cell, ofCapacity, Arena.getElem?_ofFn]
  split <;> rfl

theorem coherent_ofCapacity (n : Nat) :
    (ofCapacity n : Cache α).Coherent [] ((List.range n).map .mk) none := by
  have owner? : ∀ s, (ofCapacity n : Cache α).owner? s = none := by
    intro s
    rw [Cache.owner?, ofCapacity, Arena.getElem?_ofFn]
    split <;> rfl
  have capacity : (ofCapacity n : Cache α).capacity = n := Arena.capacity_ofFn n _
  refine ⟨Links.threads_ofCapacity n, ?_, ?_, ?_, nofun, ?_, ?_, ?_⟩
  · rw [capacity]
    exact Arena.capacity_ofFn n _
  · rw [capacity]
    exact Links.capacity_ofCapacity n
  · intro s hs
    rw [capacity] at hs
    exact .inr (.inl (List.mem_map.2 ⟨s.offset, List.mem_range.2 hs, rfl⟩))
  · intro key s
    rw [owner?]
    exact iff_of_false (by simp [ofCapacity]) nofun
  · intro s
    rw [owner?]
    exact iff_of_false List.not_mem_nil fun n => n rfl
  · intro s
    rw [owner?, cell_ofCapacity]
    exact iff_of_true rfl rfl

end Cache

end Arbiter
