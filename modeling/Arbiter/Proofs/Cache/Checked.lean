import Arbiter.Proofs.Cache.Representation
import Arbiter.Proofs.Links.Checked

namespace Arbiter

namespace Cache

universe u v

variable {α : Type u} {ε : Type v}

namespace Checked

def reset (c : Cache α) (s : Slot) : Except Breach (Cache α) :=
  (c.cells.update s .reset).map fun cells => { c with cells }

def store (c : Cache α) (s : Slot) (value : α) (expiry : Expiry) : Except Breach (Cache α) :=
  (c.cells.update s (·.store value expiry)).map fun cells => { c with cells }

def touch (c : Cache α) (s : Slot) : Except Breach (Cache α) :=
  (Links.Checked.moveToFront c.links s).map fun links => { c with links }

def assign (c : Cache α) (s : Slot) (key : String) : Except Breach (Cache α) :=
  (c.owners.write s (some key)).bind fun owners =>
  (Links.Checked.pushFront c.links s).map fun links =>
    { c with owners, table := c.table.insert key s, links }

def unassign (c : Cache α) (s : Slot) : Except Breach (Cache α) :=
  (c.owners.read s).bind fun
    | some key =>
      (c.owners.write s none).bind fun owners =>
      (Links.Checked.unlink c.links s).map fun links =>
        { c with owners, table := c.table.erase key, links }
    | none => .ok c

def release (c : Cache α) (s : Slot) : Except Breach (Cache α) :=
  (unassign c s).bind fun c =>
  (Links.Checked.pushFree c.links s).map fun links => { c with links }

def findIdle? (c : Cache α) : List Slot → Except Breach (Option Slot)
  | [] => .ok none
  | s :: slots => (c.cells.read s).bind fun cell =>
    if cell.content.isLoading then findIdle? c slots else .ok (some s)

def victim? (c : Cache α) : Except Breach (Option Slot) :=
  (Links.Checked.oldestFirst c.links).bind fun slots =>
  (findIdle? c slots).map fun idle => idle.or c.links.tail

def evict? (c : Cache α) : Except Breach (Option (Slot × Cache α)) :=
  (victim? c).bind fun
    | some s =>
      (unassign c s).bind fun c =>
      (reset c s).map fun c => some (s, c.record .eviction)
    | none => .ok none

def takeSlot? (c : Cache α) : Except Breach (Option (Slot × Cache α)) :=
  (Links.Checked.popFree? c.links).bind fun
    | some (s, links) => .ok (some (s, { c with links }))
    | none => evict? c

def claim (c : Cache α) (s : Slot) : Except Breach (Cache α × Lookup α) :=
  (c.cells.read s).bind fun cell =>
  (c.cells.write s cell.beginLoad).map fun cells =>
    ({ c with cells }, .claimed ⟨s, cell.beginLoad.generation⟩)

def lookup (c : Cache α) (now : Instant) (key : String) : Except Breach (Cache α × Lookup α) :=
  match c.table[key]? with
  | some s =>
    (c.cells.read s).bind fun cell =>
    if cell.content.isLoading then .ok (c, .inFlight ⟨s, cell.generation⟩)
    else
      match cell.content.fresh? now with
      | some value => (touch c s).map fun c => (c.record .hit, .hit value)
      | none => (touch c s).bind fun c => claim (c.record .miss) s
  | none =>
    (takeSlot? (c.record .miss)).bind fun
      | some (s, c) => (assign c s key).bind fun c => claim c s
      | none => .ok (c.record .miss, .unavailable)

def enter (c : Cache α) (now : Instant) (key : String) (ttl : Duration) :
    Except Breach (Cache α × Admission α) :=
  if ttl.isZero then .ok (c.record .bypass, .run none)
  else
    (lookup c now key).bind fun
      | (c, .hit value) => .ok (c, .hit value)
      | (c, .inFlight load) =>
        (c.cells.read load.slot).map fun _ => (c.record .wait, .wait load)
      | (c, .claimed claim) => .ok (c, .run (some claim))
      | (c, .unavailable) => .ok (c, .run none)

def complete (c : Cache α) (now : Instant) (key : String) (claim : Ticket) (ttl : Duration)
    (outcome : Except (LoadError ε) α) : Except Breach (Cache α × Except (LoadError ε) α) :=
  (c.cells.read claim.slot).bind fun cell =>
  if c.table[key]? == some claim.slot && cell.isLoading claim.generation then
    match outcome with
    | .ok value =>
      (store c claim.slot value (.after now ttl)).bind fun c =>
      (touch c claim.slot).map fun c => (c, .ok value)
    | .error e =>
      (reset c claim.slot).bind fun c =>
      (release c claim.slot).map fun c => (c, .error e)
  else .ok (c, outcome)

def settle (c : Cache α) (now : Instant) (key : String) (ttl : Duration) (claim : Option Ticket)
    (outcome : Except (LoadError ε) α) : Except Breach (Cache α × Except (LoadError ε) α) :=
  match claim with
  | some claim => complete (c.record (loadEvent outcome)) now key claim ttl outcome
  | none => .ok (c.record (loadEvent outcome), outcome)

def peek (c : Cache α) (now : Instant) (key : String) : Except Breach (Option α) :=
  match c.table[key]? with
  | some s => (c.cells.read s).map fun cell => cell.content.fresh? now
  | none => .ok none

def delete (c : Cache α) (key : String) : Except Breach (Cache α × Bool) :=
  match c.table[key]? with
  | some s =>
    (release c s).bind fun c =>
    (reset c s).map fun c => (c.record .deletion, true)
  | none => .ok (c, false)

def owned (c : Cache α) : List Slot → Except Breach (List String)
  | [] => .ok []
  | s :: slots =>
    (c.owners.read s).bind fun owner =>
    (owned c slots).map fun keys => owner.toList ++ keys

def keys (c : Cache α) : Except Breach (List String) :=
  (Links.Checked.recency c.links).bind (owned c)

end Checked

structure Sized (n : Nat) (c : Cache α) : Prop where
  owners : c.owners.capacity = n
  links : ∃ lists, Links.Threading n c.links lists
  cells : c.cells.capacity = n

namespace Sized

variable {n : Nat} {c c' : Cache α} {s : Slot} {slots : List Slot}

theorem threads (h : c.Sized n) : ∃ linked free, c.links.Threads linked free := by
  obtain ⟨lists, threading⟩ := h.links
  exact ⟨lists.recency, lists.free, threading.threads⟩

theorem links_capacity (h : c.Sized n) : c.links.capacity = n := by
  obtain ⟨_, threading⟩ := h.links
  exact threading.capacity

theorem lt_owners (h : c.Sized n) (hs : s.offset < n) : s.offset < c.owners.capacity := by
  rwa [h.owners]

theorem lt_links (h : c.Sized n) (hs : s.offset < n) : s.offset < c.links.capacity := by
  rwa [h.links_capacity]

theorem lt_cells (h : c.Sized n) (hs : s.offset < n) : s.offset < c.cells.capacity := by
  rwa [h.cells]

theorem act (h : c.Sized n) (o : Links.Operation) :
    ({ c with links := (c.links.act o).1 } : Cache α).Sized n := by
  obtain ⟨lists, threading⟩ := h.links
  exact ⟨h.owners, ⟨_, (threading.act o).1⟩, h.cells⟩

protected theorem record (h : c.Sized n) (e : Event) : (c.record e).Sized n :=
  ⟨h.owners, h.links, h.cells⟩

protected theorem reset (h : c.Sized n) (s : Slot) : (c.reset s).Sized n :=
  ⟨h.owners, h.links, (Arena.capacity_modify _ _ _).trans h.cells⟩

protected theorem store (h : c.Sized n) (s : Slot) (value : α) (expiry : Expiry) :
    (c.store s value expiry).Sized n :=
  ⟨h.owners, h.links, (Arena.capacity_modify _ _ _).trans h.cells⟩

protected theorem unassign (h : c.Sized n) (s : Slot) : (c.unassign s).Sized n := by
  rw [Cache.unassign]
  cases c.owner? s with
  | none => exact h
  | some key =>
    exact ⟨(Arena.capacity_set _ _ _).trans h.owners, (h.act (.unlink s)).links, h.cells⟩

theorem read_owner (h : c.Sized n) (hs : s.offset < n) : c.owners.read s = .ok (c.owner? s) := by
  obtain ⟨owner, at_s⟩ := Arena.some_of_lt (h.lt_owners hs)
  rw [Arena.read_eq at_s, owner?, at_s]
  rfl

theorem read_cell (h : c.Sized n) (hs : s.offset < n) : c.cells.read s = .ok (c.cell s) :=
  Arena.read_eq (cells_some (h.lt_cells hs))

theorem reset_eq (h : c.Sized n) (hs : s.offset < n) : Checked.reset c s = .ok (c.reset s) := by
  rw [Checked.reset, Arena.update_eq (h.lt_cells hs)]
  rfl

theorem store_eq (h : c.Sized n) (hs : s.offset < n) (value : α) (expiry : Expiry) :
    Checked.store c s value expiry = .ok (c.store s value expiry) := by
  rw [Checked.store, Arena.update_eq (h.lt_cells hs)]
  rfl

theorem touch_eq (h : c.Sized n) (hs : s.offset < n) : Checked.touch c s = .ok (c.touch s) := by
  obtain ⟨_, _, threads⟩ := h.threads
  rw [Checked.touch, Links.Checked.moveToFront_eq threads (h.lt_links hs)]
  rfl

theorem claim_eq (h : c.Sized n) (hs : s.offset < n) : Checked.claim c s = .ok (c.claim s) := by
  rw [Checked.claim, h.read_cell hs, Except.bind, Arena.write_eq (h.lt_cells hs)]
  rfl

theorem assign_eq (h : c.Sized n) (hs : s.offset < n) (key : String) :
    Checked.assign c s key = .ok (c.assign s key) := by
  obtain ⟨_, _, threads⟩ := h.threads
  rw [Checked.assign, Arena.write_eq (h.lt_owners hs), Except.bind,
    Links.Checked.pushFront_eq threads (h.lt_links hs)]
  rfl

theorem unassign_eq (h : c.Sized n) (hs : s.offset < n) :
    Checked.unassign c s = .ok (c.unassign s) := by
  obtain ⟨_, _, threads⟩ := h.threads
  rw [Checked.unassign, h.read_owner hs, Cache.unassign]
  cases c.owner? s with
  | none => rfl
  | some key =>
    simp only [Except.bind, Arena.write_eq (h.lt_owners hs),
      Links.Checked.unlink_eq threads (h.lt_links hs)]
    rfl

theorem release_eq (h : c.Sized n) (hs : s.offset < n) :
    Checked.release c s = .ok (c.release s) := by
  have left := h.unassign s
  obtain ⟨_, _, threads⟩ := left.threads
  rw [Checked.release, h.unassign_eq hs, Except.bind,
    Links.Checked.pushFree_eq threads (left.lt_links hs)]
  rfl

theorem findIdle?_eq (h : c.Sized n) (range : ∀ s ∈ slots, s.offset < n) :
    Checked.findIdle? c slots = .ok (slots.find? fun s => !(c.cell s).content.isLoading) := by
  induction slots with
  | nil => rfl
  | cons s slots ih =>
    rw [List.forall_mem_cons] at range
    rw [Checked.findIdle?, h.read_cell range.1, Except.bind, List.find?_cons, ih range.2]
    cases (c.cell s).content.isLoading <;> rfl

theorem victim?_eq (h : c.Sized n) : Checked.victim? c = .ok c.victim? := by
  obtain ⟨linked, _, threads⟩ := h.threads
  have range : ∀ s ∈ c.links.oldestFirst, s.offset < n := by
    intro s hs
    rw [threads.oldestFirst_eq, List.mem_reverse] at hs
    exact h.links_capacity ▸ threads.lt_of_linked hs
  rw [Checked.victim?, Links.Checked.oldestFirst_eq threads, Except.bind, h.findIdle?_eq range]
  rfl

theorem lt_of_victim? (h : c.Sized n) (victim : c.victim? = some s) : s.offset < n := by
  obtain ⟨linked, _, threads⟩ := h.threads
  rw [← h.links_capacity]
  rw [Cache.victim?, Option.or_eq_some_iff, threads.oldestFirst_eq] at victim
  rcases victim with idle | ⟨-, last⟩
  · exact threads.lt_of_linked (List.mem_reverse.1 (List.mem_of_find?_eq_some idle))
  · exact threads.closed.tail s last

theorem evict?_eq (h : c.Sized n) : Checked.evict? c = .ok c.evict? := by
  rw [Checked.evict?, h.victim?_eq, Cache.evict?]
  cases victim : c.victim? with
  | none => rfl
  | some s =>
    have range := h.lt_of_victim? victim
    simp only [Except.bind, h.unassign_eq range, (h.unassign s).reset_eq range]
    rfl

theorem takeSlot?_eq (h : c.Sized n) : Checked.takeSlot? c = .ok c.takeSlot? := by
  obtain ⟨_, _, threads⟩ := h.threads
  rw [Checked.takeSlot?, Links.Checked.popFree?_eq threads, Cache.takeSlot?, Except.bind]
  cases c.links.popFree? with
  | none => exact h.evict?_eq
  | some popped => rfl

theorem lt_of_popFree? (h : c.Sized n) {links : Links}
    (popped : c.links.popFree? = some (s, links)) : s.offset < n := by
  obtain ⟨_, _, threads⟩ := h.threads
  rw [← h.links_capacity]
  apply threads.closed.top
  unfold Links.popFree? at popped
  split at popped
  · cases popped
  · split at popped
    · cases popped
    · cases popped
      assumption

theorem taken (h : c.Sized n) (taken : c.takeSlot? = some (s, c')) :
    s.offset < n ∧ c'.Sized n := by
  rw [Cache.takeSlot?] at taken
  cases popped : c.links.popFree? with
  | some top =>
    obtain ⟨t, links⟩ := top
    rw [popped] at taken
    cases taken
    have popFree := h.act .popFree
    rw [Links.act, popped] at popFree
    exact ⟨h.lt_of_popFree? popped, popFree⟩
  | none =>
    rw [popped, Cache.evict?] at taken
    obtain ⟨_, is, left⟩ := Option.map_eq_some_iff.1 taken
    cases left
    exact ⟨h.lt_of_victim? is, ((h.unassign s).reset s).record .eviction⟩

theorem owned_eq (h : c.Sized n) (range : ∀ s ∈ slots, s.offset < n) :
    Checked.owned c slots = .ok (slots.filterMap c.owner?) := by
  induction slots with
  | nil => rfl
  | cons s slots ih =>
    rw [List.forall_mem_cons] at range
    rw [Checked.owned, h.read_owner range.1, Except.bind, ih range.2, List.filterMap_cons]
    cases c.owner? s <;> rfl

theorem keys_eq (h : c.Sized n) : Checked.keys c = .ok c.keys := by
  obtain ⟨linked, _, threads⟩ := h.threads
  rw [Checked.keys, Links.Checked.recency_eq threads, Except.bind]
  apply h.owned_eq
  intro s hs
  rw [threads.recency_eq] at hs
  exact h.links_capacity ▸ threads.lt_of_linked hs

end Sized

namespace Steady

variable {c : Cache α} {key : String} {s : Slot}

theorem threading (h : c.Steady) :
    Links.Threading c.capacity c.links ⟨c.links.recency, c.links.freeStack, []⟩ := by
  have apart := List.disjoint_left.2 fun _ => h.threads.disjoint
  have nodup : (Links.Lists.slots ⟨c.links.recency, c.links.freeStack, []⟩).Nodup := by
    rw [Links.Lists.slots, List.append_nil]
    exact h.threads.nodup_linked.append h.threads.nodup_free apart
  refine ⟨h.threads, h.links_capacity, ?_⟩
  refine (List.perm_ext_iff_of_nodup nodup (Links.threading_ofCapacity _).nodup).2 fun s => ?_
  rw [(Links.threading_ofCapacity _).mem_slots, Links.capacity_ofCapacity, Links.Lists.mem_slots]
  constructor
  · rintro (linked | free | none)
    · exact h.lt_of_linked linked
    · exact h.links_capacity ▸ h.threads.lt_of_free free
    · cases none
  · intro range
    rcases h.placed s range with linked | free | hole
    · exact .inl linked
    · exact .inr (.inl free)
    · cases hole

theorem sized (h : c.Steady) : c.Sized c.capacity :=
  ⟨h.owners_capacity, ⟨_, h.threading⟩, rfl⟩

theorem lt_of_mapped (h : c.Steady) (mapped : c.table[key]? = some s) : s.offset < c.capacity :=
  h.lt_of_linked (h.linked_of_mapped mapped)

theorem lookup_eq (h : c.Steady) (now : Instant) (key : String) :
    Checked.lookup c now key = .ok (c.lookup now key) := by
  rw [Checked.lookup, Cache.lookup]
  cases mapped : c.table[key]? with
  | some s =>
    have range := h.lt_of_mapped mapped
    have touched : (c.touch s).Sized c.capacity := h.sized.act (.moveToFront s)
    simp only [h.sized.read_cell range, h.sized.touch_eq range, Except.bind]
    cases (c.cell s).content.isLoading with
    | true => rfl
    | false =>
      cases (c.cell s).content.fresh? now with
      | some value => rfl
      | none => exact (touched.record .miss).claim_eq range
  | none =>
    have missed := h.sized.record .miss
    simp only [missed.takeSlot?_eq, Except.bind]
    cases taken : (c.record .miss).takeSlot? with
    | none => rfl
    | some left =>
      obtain ⟨s, c'⟩ := left
      obtain ⟨range, sized⟩ := missed.taken taken
      have assigned : (c'.assign s key).Sized c.capacity :=
        ⟨(Arena.capacity_set _ _ _).trans sized.owners, (sized.act (.pushFront s)).links,
          sized.cells⟩
      simp only [sized.assign_eq range]
      exact assigned.claim_eq range

theorem enter_eq (h : c.Steady) (now : Instant) (key : String) (ttl : Duration) :
    Checked.enter c now key ttl = .ok (c.enter now key ttl) := by
  rw [Checked.enter, Cache.enter]
  split
  · rfl
  · have looked := (h.lookup now key).2
    rw [h.lookup_eq]
    generalize c.lookup now key = result at looked
    obtain ⟨c', lookup⟩ := result
    dsimp only at looked
    cases looked with
    | inFlight s mapped _ same =>
      subst same
      simp only [Except.bind, h.sized.read_cell (h.lt_of_mapped mapped)]
      rfl
    | _ => rfl

theorem complete_eq (h : c.Steady) (now : Instant) (key : String) {claim : Ticket}
    (range : claim.slot.offset < c.capacity) (ttl : Duration)
    (outcome : Except (LoadError ε) α) :
    Checked.complete c now key claim ttl outcome = .ok (c.complete now key claim ttl outcome) := by
  unfold Checked.complete Cache.complete
  rw [h.sized.read_cell range, Except.bind, holds]
  split
  · cases outcome with
    | ok value =>
      have stored := h.sized.store claim.slot value (.after now ttl)
      simp only [h.sized.store_eq range, Except.bind, stored.touch_eq range]
      rfl
    | error error =>
      have cleared := h.sized.reset claim.slot
      simp only [h.sized.reset_eq range, Except.bind, cleared.release_eq range]
      rfl
  · rfl

theorem settle_eq (h : c.Steady) (now : Instant) (key : String) (ttl : Duration)
    {claim : Option Ticket} (range : ∀ t ∈ claim, t.slot.offset < c.capacity)
    (outcome : Except (LoadError ε) α) :
    Checked.settle c now key ttl claim outcome = .ok (c.settle now key ttl claim outcome) := by
  cases claim with
  | none => rfl
  | some claim =>
    exact (Coherent.record h _).steady.complete_eq now key (range claim rfl) ttl outcome

theorem peek_eq (h : c.Steady) (now : Instant) (key : String) :
    Checked.peek c now key = .ok (c.peek now key) := by
  rw [Checked.peek, Cache.peek]
  cases mapped : c.table[key]? with
  | none => rfl
  | some s =>
    simp only [h.sized.read_cell (h.lt_of_mapped mapped)]
    rfl

theorem delete_eq (h : c.Steady) (key : String) : Checked.delete c key = .ok (c.delete key) := by
  rw [Checked.delete, Cache.delete]
  cases mapped : c.table[key]? with
  | none => rfl
  | some s =>
    have range := h.lt_of_mapped mapped
    have left := h.sized.unassign s
    have released : (c.release s).Sized c.capacity := left.act (.pushFree s)
    simp only [h.sized.release_eq range, Except.bind, released.reset_eq range]
    rfl

end Steady

end Cache

end Arbiter
