import Arbiter.Proofs.Cache.Representation

namespace Arbiter

namespace Cache

universe u v

variable {α : Type u} {ε : Type v}

inductive Counted (c : Cache α) (key : String) (c' : Cache α) : Lookup α → Prop
  | inFlight (load : Ticket) (same : c' = c) : Counted c key c' (.inFlight load)
  | hit (value : α) (counters : c'.counters = c.counters.record .hit) (size : c'.size = c.size) :
      Counted c key c' (.hit value)
  | reload (claim : Ticket) (mapped : c.contains key = true)
      (counters : c'.counters = c.counters.record .miss) (size : c'.size = c.size) :
      Counted c key c' (.claimed claim)
  | fill (claim : Ticket) (unmapped : c.contains key = false)
      (counters : c'.counters = c.counters.record .miss) (size : c'.size = c.size + 1) :
      Counted c key c' (.claimed claim)
  | evict (claim : Ticket) (unmapped : c.contains key = false)
      (counters : c'.counters = (c.counters.record .miss).record .eviction)
      (size : c'.size = c.size) : Counted c key c' (.claimed claim)
  | unavailable (empty : c.capacity = 0) (same : c' = c.record .miss) :
      Counted c key c' .unavailable

section Counters

variable (c : Cache α) (s : Slot)

@[simp] theorem counters_record (e : Event) : (c.record e).counters = c.counters.record e := rfl

@[simp] theorem counters_touch : (c.touch s).counters = c.counters := rfl

@[simp] theorem counters_assign (key : String) : (c.assign s key).counters = c.counters := rfl

@[simp] theorem counters_reset : (c.reset s).counters = c.counters := rfl

@[simp] theorem counters_store (value : α) (expiry : Expiry) :
    (c.store s value expiry).counters = c.counters := rfl

@[simp] theorem counters_claim : (c.claim s).1.counters = c.counters := rfl

@[simp] theorem counters_unassign : (c.unassign s).counters = c.counters := by
  rw [unassign]
  cases c.owner? s <;> rfl

@[simp] theorem counters_release : (c.release s).counters = c.counters := c.counters_unassign s

@[simp] theorem counters_complete (now : Instant) (key : String) (claim : Ticket) (ttl : Duration)
    (outcome : Except (LoadError ε) α) :
    (c.complete now key claim ttl outcome).1.counters = c.counters := by
  unfold Cache.complete
  split
  · cases outcome <;> simp
  · rfl

@[simp] theorem counters_settle (now : Instant) (key : String) (ttl : Duration)
    (claim : Option Ticket) (outcome : Except (LoadError ε) α) :
    (c.settle now key ttl claim outcome).1.counters = c.counters.record (loadEvent outcome) := by
  unfold Cache.settle
  cases claim <;> simp

theorem counters_delete (key : String) : (c.delete key).1.counters =
    if (c.delete key).2 then c.counters.record .deletion else c.counters := by
  rw [delete]
  cases c.table[key]? <;> simp

variable {c s}

theorem counters_lookup_mapped {key : String} (now : Instant) (mapped : c.table[key]? = some s) :
    (c.lookup now key).1.counters = match (c.lookup now key).2 with
      | .inFlight _ => c.counters
      | .hit _ => c.counters.record .hit
      | _ => c.counters.record .miss := by
  rw [lookup, mapped]
  dsimp only
  split
  · rfl
  · split <;> rfl

theorem Steady.counters_takeSlot? {c' : Cache α} (h : c.Steady)
    (taken : c.takeSlot? = some (s, c')) : c'.counters =
      if c.links.freeStack = [] then c.counters.record .eviction else c.counters := by
  unfold Steady at h
  cases free : c.links.freeStack with
  | cons top free =>
    rw [free] at h
    obtain ⟨links, popped, -⟩ := h.popFree?
    rw [takeSlot?, popped] at taken
    cases taken
    rfl
  | nil =>
    rw [free] at h
    rw [takeSlot?, h.threads.popFree?_nil, evict?] at taken
    obtain ⟨victim, -, is⟩ := Option.map_eq_some_iff.1 taken
    cases is
    simp

theorem Steady.counters_lookup_unmapped {key : String} {claim : Ticket} (h : c.Steady)
    (now : Instant) (unmapped : c.table[key]? = none)
    (claimed : (c.lookup now key).2 = .claimed claim) :
    (c.lookup now key).1.counters = if c.links.freeStack = []
      then (c.counters.record .miss).record .eviction else c.counters.record .miss := by
  have missed := (Coherent.record h .miss).steady
  rw [Cache.lookup, unmapped] at claimed ⊢
  dsimp only at claimed ⊢
  cases taken : (c.record .miss).takeSlot? with
  | none =>
    rw [taken] at claimed
    cases claimed
  | some slot =>
    obtain ⟨s, c'⟩ := slot
    rw [counters_claim, counters_assign, missed.counters_takeSlot? taken]
    rfl

end Counters

section Contains

variable {c : Cache α} {key : String} {s : Slot}

theorem contains_of_mapped (mapped : c.table[key]? = some s) : c.contains key = true := by
  rw [contains, Std.TreeMap.contains_eq_isSome_getElem?, mapped]
  rfl

theorem contains_of_unmapped (unmapped : c.table[key]? = none) : c.contains key = false := by
  rw [contains, Std.TreeMap.contains_eq_isSome_getElem?, unmapped]
  rfl

end Contains

namespace Steady

variable {c : Cache α} {key : String}

theorem size_eq (h : c.Steady) : c.size = c.links.recency.length :=
  (Coherent.size_eq h).trans (Coherent.length_keys h)

theorem length_touch {s : Slot} (h : c.Steady) (mapped : c.table[key]? = some s) :
    (s :: c.links.recency.erase s).length = c.links.recency.length :=
  List.length_erase_add_one (h.linked_of_mapped mapped)

theorem counted (h : c.Steady) (now : Instant) (key : String) :
    Counted c key (c.lookup now key).1 (c.lookup now key).2 := by
  obtain ⟨steady, looked⟩ := h.lookup now key
  have size := steady.size_eq
  have touched {s : Slot} (mapped : c.table[key]? = some s) := counters_lookup_mapped now mapped
  have taken {claim : Ticket} (unmapped : c.table[key]? = none)
      (claimed : (c.lookup now key).2 = .claimed claim) :=
    h.counters_lookup_unmapped now unmapped claimed
  generalize c.lookup now key = result at *
  obtain ⟨c', lookup⟩ := result
  dsimp only at *
  cases looked with
  | inFlight s mapped loading same => exact .inFlight _ same
  | hit s value expiry mapped stored fresh shows =>
    refine .hit value (touched mapped) ?_
    rw [size, shows.recency, h.length_touch mapped, h.size_eq]
  | reload s value expiry mapped stored stale shows =>
    refine .reload _ (contains_of_mapped mapped) (touched mapped) ?_
    rw [size, shows.recency, h.length_touch mapped, h.size_eq]
  | fill s free unmapped top shows =>
    refine .fill _ (contains_of_unmapped unmapped) ?_ ?_
    · rw [taken unmapped rfl, top, if_neg (List.cons_ne_nil s free)]
    · rw [size, shows.recency, List.length_cons, h.size_eq]
  | evict s old unmapped full victim owned shows =>
    refine .evict _ (contains_of_unmapped unmapped) ?_ ?_
    · rw [taken unmapped rfl, if_pos full]
    · rw [size, shows.recency, h.length_touch owned, h.size_eq]
  | unavailable empty same => exact .unavailable empty same

end Steady

end Cache

end Arbiter
