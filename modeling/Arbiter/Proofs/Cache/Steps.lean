import Arbiter.Cache.Get
import Arbiter.Proofs.Cache.Coherent

namespace Arbiter

namespace Cache

universe u v

variable {α : Type u} {ε : Type v}

inductive Looked (c : Cache α) (now : Instant) (key : String) (c' : Cache α) : Lookup α → Prop
  | inFlight (s : Slot) (mapped : c.table[key]? = some s)
      (loading : (c.cell s).content = .loading) (same : c' = c) :
      Looked c now key c' (.inFlight ⟨s, (c.cell s).generation⟩)
  | hit (s : Slot) (value : α) (expiry : Expiry) (mapped : c.table[key]? = some s)
      (stored : (c.cell s).content = .stored value expiry) (fresh : expiry.isFresh now = true)
      (shows : c'.Shows c.table c.cell (s :: c.links.recency.erase s) c.links.freeStack) :
      Looked c now key c' (.hit value)
  | reload (s : Slot) (value : α) (expiry : Expiry) (mapped : c.table[key]? = some s)
      (stored : (c.cell s).content = .stored value expiry) (stale : expiry.isFresh now = false)
      (shows : c'.Shows c.table (Function.update c.cell s (c.cell s).beginLoad)
        (s :: c.links.recency.erase s) c.links.freeStack) :
      Looked c now key c' (.claimed ⟨s, (c.cell s).beginLoad.generation⟩)
  | fill (s : Slot) (free : List Slot) (unmapped : c.table[key]? = none)
      (top : c.links.freeStack = s :: free)
      (shows : c'.Shows (c.table.insert key s) (Function.update c.cell s (c.cell s).beginLoad)
        (s :: c.links.recency) free) :
      Looked c now key c' (.claimed ⟨s, (c.cell s).beginLoad.generation⟩)
  | evict (s : Slot) (old : String) (unmapped : c.table[key]? = none)
      (full : c.links.freeStack = []) (victim : c.victim? = some s)
      (owned : c.table[old]? = some s)
      (shows : c'.Shows ((c.table.erase old).insert key s)
        (Function.update c.cell s (c.cell s).reset.beginLoad) (s :: c.links.recency.erase s) []) :
      Looked c now key c' (.claimed ⟨s, (c.cell s).reset.beginLoad.generation⟩)
  | unavailable (empty : c.capacity = 0) (same : c' = c.record .miss) :
      Looked c now key c' .unavailable

/-- `s` has been claimed for `key`, `lag` generations on. No load of `key` was under way, and where
`s` was another key's it is no longer. -/
structure Claimed (c : Cache α) (key : String) (s : Slot) (lag : Nat) (c' : Cache α) : Prop where
  small : lag = 1 ∨ lag = 2
  idle : ∀ t, c.table[key]? = some t → t = s ∧ (c.cell s).content ≠ .loading
  mapped : c'.table[key]? = some s
  others : ∀ j : String, j ≠ key → ∀ t,
    c'.table[j]? = some t ↔ c.table[j]? = some t ∧ t ≠ s
  cell : c'.cell =
    Function.update c.cell s ⟨.loading, (c.cell s).generation + .ofNat lag⟩

/-- What the end of a load of `key` in `s` changes: a value is stored and its key promoted, after
a failure the key is unmapped and its slot freed. -/
def Settled (c : Cache α) (now : Instant) (key : String) (s : Slot) (ttl : Duration)
    (c' : Cache α) : Except (LoadError ε) α → Prop
  | .ok value => c'.Shows c.table
      (Function.update c.cell s ((c.cell s).store value (.after now ttl)))
      (s :: c.links.recency.erase s) c.links.freeStack
  | .error _ => c'.Shows (c.table.erase key) (Function.update c.cell s (c.cell s).reset)
      (c.links.recency.erase s) (s :: c.links.freeStack)

inductive Completed (c : Cache α) (now : Instant) (key : String) (claim : Ticket) (ttl : Duration)
    (c' : Cache α) (outcome : Except (LoadError ε) α) : Prop
  | settled (holds : c.holds key claim = true)
      (settled : c.Settled now key claim.slot ttl c' outcome)
  | displaced (displaced : c.holds key claim = false) (same : c' = c)

inductive Deleted (c : Cache α) (key : String) (c' : Cache α) : Bool → Prop
  | dropped (s : Slot) (mapped : c.table[key]? = some s)
      (shows : c'.Shows (c.table.erase key) (Function.update c.cell s (c.cell s).reset)
        (c.links.recency.erase s) (s :: c.links.freeStack)) : Deleted c key c' true
  | absent (unmapped : c.table[key]? = none) (same : c' = c) : Deleted c key c' false

def admitted : Cache α × Lookup α → Cache α × Admission α
  | (c, .hit value) => (c, .hit value)
  | (c, .inFlight load) => (c.record .wait, .wait load)
  | (c, .claimed claim) => (c, .run (some claim))
  | (c, .unavailable) => (c, .run none)

theorem enter_bypass (c : Cache α) (now : Instant) (key : String) {ttl : Duration}
    (zero : ttl.isZero = true) : c.enter now key ttl = (c.record .bypass, .run none) := by
  rw [enter, if_pos zero]

theorem enter_lookup (c : Cache α) (now : Instant) (key : String) {ttl : Duration}
    (positive : ttl.isZero = false) : c.enter now key ttl = admitted (c.lookup now key) := by
  rw [enter, positive]
  rfl

section Victim

variable {c : Cache α} {linked free : List Slot}

theorem Coherent.victim?_eq (h : c.Coherent linked free none) :
    c.victim? = (linked.reverse.find? fun s => !(c.cell s).content.isLoading).or
      linked.getLast? := by
  rw [victim?, h.threads.oldestFirst_eq, h.threads.tail]

theorem Coherent.linked_of_victim? (h : c.Coherent linked free none) {s : Slot}
    (hs : c.victim? = some s) : s ∈ linked := by
  rw [h.victim?_eq, Option.or_eq_some_iff] at hs
  rcases hs with hs | ⟨_, hs⟩
  · exact List.mem_reverse.1 (List.mem_of_find?_eq_some hs)
  · exact List.mem_of_getLast? hs

theorem Coherent.victim?_eq_none (h : c.Coherent linked free none) :
    c.victim? = none ↔ linked = [] := by
  rw [h.victim?_eq, Option.or_eq_none_iff, List.getLast?_eq_none_iff]
  constructor
  · exact And.right
  · rintro rfl
    exact ⟨rfl, rfl⟩

end Victim

theorem isLoading_iff {x : Cell α} {generation : UInt64} :
    x.isLoading generation = true ↔ x.content = .loading ∧ x.generation = generation := by
  rw [Cell.isLoading, Bool.and_eq_true, beq_iff_eq]
  cases x.content <;> simp [Content.isLoading]

theorem holds_iff {c : Cache α} {key : String} {claim : Ticket} :
    c.holds key claim = true ↔ c.table[key]? = some claim.slot ∧
      (c.cell claim.slot).content = .loading ∧
      (c.cell claim.slot).generation = claim.generation := by
  rw [holds, Bool.and_eq_true, beq_iff_eq, isLoading_iff]

section TakeSlot

variable {c : Cache α} {linked free : List Slot} {s : Slot} {old key : String}

theorem Coherent.takeSlot?_top (h : c.Coherent linked (s :: free) none) :
    ∃ c', c.takeSlot? = some (s, c') ∧ c'.Coherent linked free (some s) ∧
      c'.table = c.table ∧ c'.cell = c.cell := by
  obtain ⟨links, popped, hole⟩ := h.popFree?
  refine ⟨{ c with links }, ?_, hole, rfl, rfl⟩
  rw [takeSlot?, popped]

theorem Coherent.takeSlot?_victim (h : c.Coherent linked [] none) (victim : c.victim? = some s)
    (owned : c.table[old]? = some s) :
    ∃ c', c.takeSlot? = some (s, c') ∧ c'.Coherent (linked.erase s) [] (some s) ∧
      c'.table = c.table.erase old ∧ c'.cell = Function.update c.cell s (c.cell s).reset := by
  refine ⟨((c.unassign s).reset s).record .eviction, ?_, (h.vacate owned).record _,
    h.table_vacate owned, h.cell_vacate owned⟩
  rw [takeSlot?, h.threads.popFree?_nil, evict?, victim]
  rfl

theorem Coherent.takeSlot?_empty (h : c.Coherent [] [] none) : c.takeSlot? = none := by
  rw [takeSlot?, h.threads.popFree?_nil, evict?, h.victim?_eq_none.2 rfl]
  rfl

theorem Coherent.capacity_eq_zero (h : c.Coherent [] [] none) : c.capacity = 0 := by
  by_contra positive
  rcases h.placed ⟨0⟩ (Nat.pos_of_ne_zero positive) with hs | hs | hs <;> cases hs

theorem Coherent.occupied {c' : Cache α} (h : c'.Coherent linked free (some s))
    (unmapped : c'.table[key]? = none) :
    ((c'.assign s key).claim s).1.Steady ∧
      ((c'.assign s key).claim s).2 = .claimed ⟨s, (c'.cell s).beginLoad.generation⟩ ∧
      ((c'.assign s key).claim s).1.Shows (c'.table.insert key s)
        (Function.update c'.cell s (c'.cell s).beginLoad) (s :: linked) free := by
  have claimed := h.occupy unmapped
  refine ⟨claimed.steady, rfl, ?_⟩
  rw [← cell_claim (c := c') h.lt_of_hole]
  exact claimed.shows

end TakeSlot

namespace Steady

variable {c : Cache α} {key : String} {s : Slot}

theorem lookup_mapped (h : c.Steady) (now : Instant) (mapped : c.table[key]? = some s) :
    (c.lookup now key).1.Steady ∧ Looked c now key (c.lookup now key).1 (c.lookup now key).2 := by
  have hl := h.linked_of_mapped mapped
  have touched := (h.touch hl).record
  rw [lookup, mapped]
  cases content : (c.cell s).content with
  | vacant => exact absurd content (h.content_of_mapped mapped)
  | loading =>
    simp only [content, Content.isLoading, if_true]
    exact ⟨h, .inFlight s mapped content rfl⟩
  | stored value expiry =>
    cases fresh : expiry.isFresh now with
    | true =>
      simp only [content, Content.isLoading, Content.fresh?, fresh, if_true, Bool.false_eq_true,
        if_false]
      exact ⟨(touched .hit).steady, .hit s value expiry mapped content fresh (touched .hit).shows⟩
    | false =>
      simp only [content, Content.isLoading, Content.fresh?, fresh, Bool.false_eq_true, if_false]
      have claimed := (touched .miss).claim List.mem_cons_self
      refine ⟨claimed.steady, .reload s value expiry mapped content fresh ?_⟩
      rw [← cell_claim (h.lt_of_linked hl)]
      exact claimed.shows

theorem lookup_unmapped (h : c.Steady) (now : Instant) (unmapped : c.table[key]? = none) :
    (c.lookup now key).1.Steady ∧ Looked c now key (c.lookup now key).1 (c.lookup now key).2 := by
  have missed := Coherent.record h .miss
  rw [lookup, unmapped]
  cases top : c.links.freeStack with
  | cons s free =>
    rw [top] at missed
    obtain ⟨c', taken, hole, table, cell⟩ := missed.takeSlot?_top
    simp only [taken]
    have unmapped' : c'.table[key]? = none := table ▸ unmapped
    obtain ⟨steady, ticket, shows⟩ := hole.occupied unmapped'
    rw [cell] at ticket
    rw [table, cell] at shows
    rw [ticket]
    exact ⟨steady, .fill s free unmapped top shows⟩
  | nil =>
    rw [top] at missed
    cases victim : (c.record .miss).victim? with
    | none =>
      rw [missed.victim?_eq_none.1 victim] at missed
      simp only [missed.takeSlot?_empty]
      exact ⟨(Coherent.record h .miss).steady, .unavailable missed.capacity_eq_zero rfl⟩
    | some s =>
      obtain ⟨old, owned⟩ := missed.mapped_iff.1 (missed.linked_of_victim? victim)
      obtain ⟨c', taken, hole, table, cell⟩ := missed.takeSlot?_victim victim owned
      simp only [taken]
      have unmapped' : c'.table[key]? = none := table ▸ getElem?_erase_eq_none unmapped
      obtain ⟨steady, ticket, shows⟩ := hole.occupied unmapped'
      rw [cell, Function.update_self] at ticket
      rw [table, cell, Function.update_self, Function.update_idem] at shows
      rw [ticket]
      exact ⟨steady, .evict s old unmapped top victim owned shows⟩

theorem lookup (h : c.Steady) (now : Instant) (key : String) :
    (c.lookup now key).1.Steady ∧ Looked c now key (c.lookup now key).1 (c.lookup now key).2 := by
  cases mapped : c.table[key]? with
  | some s => exact h.lookup_mapped now mapped
  | none => exact h.lookup_unmapped now mapped

theorem dropped (h : c.Steady) (mapped : c.table[key]? = some s) :
    ((c.release s).reset s).Steady ∧ ((c.release s).reset s).Shows (c.table.erase key)
      (Function.update c.cell s (c.cell s).reset) (c.links.recency.erase s)
      (s :: c.links.freeStack) := by
  have freed := (h.vacate mapped).pushFree
  refine ⟨freed.steady, ?_⟩
  rw [← h.table_vacate mapped, ← h.cell_vacate mapped]
  exact freed.shows

theorem release_reset (h : c.Steady) (mapped : c.table[key]? = some s) :
    (c.reset s).release s = (c.release s).reset s := by
  have owner := (h.table_iff key s).1 mapped
  rw [release, release, unassign, show (c.reset s).owner? s = some key from owner, unassign, owner]
  rfl

theorem complete (h : c.Steady) (now : Instant) (key : String) (claim : Ticket) (ttl : Duration)
    (outcome : Except (LoadError ε) α) :
    (c.complete now key claim ttl outcome).1.Steady ∧
      Completed c now key claim ttl (c.complete now key claim ttl outcome).1 outcome := by
  unfold Cache.complete
  cases holds : c.holds key claim with
  | false => exact ⟨h, .displaced holds rfl⟩
  | true =>
    have mapped := (holds_iff.1 holds).1
    have hl := h.linked_of_mapped mapped
    cases outcome with
    | ok value =>
      have touched := (Coherent.store h hl value (.after now ttl)).touch hl
      refine ⟨touched.steady, .settled holds ?_⟩
      rw [Settled, ← cell_store (h.lt_of_linked hl)]
      exact touched.shows
    | error error =>
      simp only [if_true]
      rw [h.release_reset mapped]
      obtain ⟨steady, shows⟩ := h.dropped mapped
      exact ⟨steady, .settled holds shows⟩

theorem delete (h : c.Steady) (key : String) :
    (c.delete key).1.Steady ∧ Deleted c key (c.delete key).1 (c.delete key).2 := by
  unfold Cache.delete
  cases mapped : c.table[key]? with
  | some s =>
    obtain ⟨steady, shows⟩ := h.dropped mapped
    exact ⟨(Coherent.record steady .deletion).steady,
      .dropped s mapped ⟨shows.table, shows.cell, shows.recency, shows.free⟩⟩
  | none => exact ⟨h, .absent mapped rfl⟩

end Steady

section Claimed

variable {c c' : Cache α} {key old : String} {s : Slot} {value : α} {expiry : Expiry}
  {recency free : List Slot}

theorem beginLoad_reset (x : Cell α) :
    x.reset.beginLoad = ⟨.loading, x.generation + .ofNat 2⟩ := by
  simp only [Cell.reset, Cell.beginLoad, Cell.mk.injEq, true_and]
  grind

theorem Steady.claimed_reload (h : c.Steady) (mapped : c.table[key]? = some s)
    (stored : (c.cell s).content = .stored value expiry)
    (shows : c'.Shows c.table (Function.update c.cell s (c.cell s).beginLoad) recency free) :
    c.Claimed key s 1 c' := by
  refine ⟨.inl rfl, ?_, ?_, ?_, shows.cell⟩
  · intro t ht
    rw [mapped] at ht
    cases ht
    rw [stored]
    exact ⟨rfl, nofun⟩
  · rw [shows.table]
    exact mapped
  · intro j hj t
    rw [shows.table]
    refine ⟨fun ht => ⟨ht, ?_⟩, And.left⟩
    rintro rfl
    exact hj (h.table_injective ht mapped)

theorem Steady.claimed_fill (h : c.Steady) (unmapped : c.table[key]? = none)
    (top : s ∈ c.links.freeStack)
    (shows : c'.Shows (c.table.insert key s) (Function.update c.cell s (c.cell s).beginLoad)
      recency free) : c.Claimed key s 1 c' := by
  refine ⟨.inl rfl, ?_, ?_, ?_, shows.cell⟩
  · rw [unmapped]
    exact nofun
  · rw [shows.table, Std.TreeMap.getElem?_insert_self]
  · intro j hj t
    rw [shows.table, getElem?_insert_of_ne hj]
    refine ⟨fun ht => ⟨ht, ?_⟩, And.left⟩
    rintro rfl
    exact h.threads.disjoint (h.linked_of_mapped ht) top

theorem Steady.claimed_evict (h : c.Steady) (unmapped : c.table[key]? = none)
    (owned : c.table[old]? = some s)
    (shows : c'.Shows ((c.table.erase old).insert key s)
      (Function.update c.cell s (c.cell s).reset.beginLoad) recency free) :
    c.Claimed key s 2 c' := by
  refine ⟨.inr rfl, ?_, ?_, ?_, ?_⟩
  · rw [unmapped]
    exact nofun
  · rw [shows.table, Std.TreeMap.getElem?_insert_self]
  · intro j hj t
    rw [shows.table, getElem?_insert_of_ne hj, getElem?_erase_eq_some]
    refine and_congr_right fun ht => not_congr ⟨?_, ?_⟩
    · rintro rfl
      exact Option.some.inj (ht.symm.trans owned)
    · rintro rfl
      exact h.table_injective ht owned
  · rw [shows.cell, beginLoad_reset]

theorem Looked.claimed {now : Instant} {claim : Ticket} (h : c.Steady)
    (looked : Looked c now key c' (.claimed claim)) : ∃ s lag, c.Claimed key s lag c' ∧
      claim = ⟨s, (c.cell s).generation + .ofNat lag⟩ := by
  generalize is : Lookup.claimed claim = lookup at looked
  cases looked with
  | reload s value expiry mapped stored stale shows =>
    cases is
    exact ⟨s, 1, h.claimed_reload mapped stored shows, rfl⟩
  | fill s free unmapped top shows =>
    cases is
    exact ⟨s, 1, h.claimed_fill unmapped (top ▸ List.mem_cons_self) shows, rfl⟩
  | evict s old unmapped full victim owned shows =>
    cases is
    exact ⟨s, 2, h.claimed_evict unmapped owned shows, by rw [beginLoad_reset]⟩
  | _ => cases is

end Claimed

section Capacity

variable (c : Cache α) (s : Slot)

@[simp] theorem capacity_record (e : Event) : (c.record e).capacity = c.capacity := rfl

@[simp] theorem capacity_touch : (c.touch s).capacity = c.capacity := rfl

@[simp] theorem capacity_assign (key : String) : (c.assign s key).capacity = c.capacity := rfl

@[simp] theorem capacity_reset : (c.reset s).capacity = c.capacity := Arena.capacity_modify _ _ _

@[simp] theorem capacity_store (value : α) (expiry : Expiry) :
    (c.store s value expiry).capacity = c.capacity := Arena.capacity_modify _ _ _

@[simp] theorem capacity_claim : (c.claim s).1.capacity = c.capacity := Arena.capacity_set _ _ _

@[simp] theorem capacity_unassign : (c.unassign s).capacity = c.capacity := by
  rw [unassign]
  cases c.owner? s <;> rfl

@[simp] theorem capacity_release : (c.release s).capacity = c.capacity := c.capacity_unassign s

variable {s}

theorem capacity_takeSlot? {c' : Cache α} (h : c.takeSlot? = some (s, c')) :
    c'.capacity = c.capacity := by
  rw [takeSlot?] at h
  cases popped : c.links.popFree? with
  | some taken =>
    rw [popped] at h
    cases h
    rfl
  | none =>
    rw [popped, evict?] at h
    obtain ⟨t, -, e⟩ := Option.map_eq_some_iff.1 h
    cases e
    simp

@[simp] theorem capacity_lookup (now : Instant) (key : String) :
    (c.lookup now key).1.capacity = c.capacity := by
  rw [lookup]
  cases c.table[key]? with
  | some s =>
    dsimp only
    split
    · rfl
    · split <;> simp
  | none =>
    dsimp only
    cases taken : (c.record .miss).takeSlot? with
    | some taken' => simpa using capacity_takeSlot? _ taken
    | none => rfl

@[simp] theorem capacity_enter (now : Instant) (key : String) (ttl : Duration) :
    (c.enter now key ttl).1.capacity = c.capacity := by
  cases zero : ttl.isZero with
  | true =>
    rw [enter_bypass c now key zero]
    rfl
  | false =>
    rw [enter_lookup c now key zero, ← c.capacity_lookup now key]
    generalize c.lookup now key = result
    obtain ⟨c', lookup⟩ := result
    cases lookup <;> rfl

@[simp] theorem capacity_complete (now : Instant) (key : String) (claim : Ticket) (ttl : Duration)
    (outcome : Except (LoadError ε) α) :
    (c.complete now key claim ttl outcome).1.capacity = c.capacity := by
  unfold Cache.complete
  split
  · cases outcome <;> simp
  · rfl

@[simp] theorem capacity_delete (key : String) : (c.delete key).1.capacity = c.capacity := by
  rw [delete]
  cases c.table[key]? <;> simp

end Capacity

end Cache

end Arbiter
