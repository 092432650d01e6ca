import Arbiter.Proofs.Cache.Lru
import Arbiter.Proofs.Cache.Representation
import Mathlib.Data.List.Forall2

/-!
A cache whose requests come one after the other is a plain list with deadlines. Between requests
every slot of the recency list keeps one entry of the list; while a load is under way the slot it
has claimed is in front of them and keeps none.
-/

namespace Arbiter

universe u v

variable {α : Type u} {ε : Type v}

namespace Cache

structure Keeps (c : Cache α) (s : Slot) (e : Lru.Entry α) : Prop where
  mapped : c.table[e.key]? = some s
  stored : ∃ expiry, (c.cell s).content = .stored e.value expiry ∧
    ∀ now : Instant, expiry.isFresh now = true ↔ now.nanos < e.deadline

structure Mirrors (c : Cache α) (l : Lru α) : Prop where
  steady : c.Steady
  capacity : c.capacity = l.capacity
  entries : List.Forall₂ c.Keeps c.links.recency l.entries

/-- A load of `key` is under way in `s`, in front of the slots that keep the entries of `l`. -/
structure Awaits (c : Cache α) (key : String) (s : Slot) (l : Lru α) : Prop where
  steady : c.Steady
  capacity : c.capacity = l.capacity
  mapped : c.table[key]? = some s
  loading : (c.cell s).content = .loading
  entries : ∃ slots, c.links.recency = s :: slots ∧ List.Forall₂ c.Keeps slots l.entries

namespace Keeps

variable {c c' : Cache α} {slots : List Slot} {entries : List (Lru.Entry α)} {key : String}
  {s t : Slot} {e : Lru.Entry α}

theorem slot_eq_iff (h : c.Keeps t e) (steady : c.Steady) (mapped : c.table[key]? = some s) :
    t = s ↔ e.key = key := by
  constructor
  · rintro rfl
    exact steady.table_injective h.mapped mapped
  · rintro rfl
    exact Option.some.inj (h.mapped.symm.trans mapped)

theorem of_stored (h : c.Keeps s e) {value : α} {expiry : Expiry}
    (stored : (c.cell s).content = .stored value expiry) (now : Instant) :
    value = e.value ∧ (expiry.isFresh now = true ↔ now.nanos < e.deadline) := by
  obtain ⟨expiry', content, fresh⟩ := h.stored
  cases stored.symm.trans content
  exact ⟨rfl, fresh now⟩

theorem congr (h : List.Forall₂ c.Keeps slots entries)
    (mapped : ∀ s ∈ slots, ∀ key : String, c.table[key]? = some s → c'.table[key]? = some s)
    (cell : ∀ s ∈ slots, c'.cell s = c.cell s) : List.Forall₂ c'.Keeps slots entries := by
  induction h with
  | nil => exact .nil
  | @cons s e slots entries head _ ih =>
    rw [List.forall_mem_cons] at mapped cell
    refine .cons ⟨mapped.1 e.key head.mapped, ?_⟩ (ih mapped.2 cell.2)
    rw [cell.1]
    exact head.stored

theorem frame (h : List.Forall₂ c.Keeps slots entries) (out : s ∉ slots) {x : Cell α}
    (mapped : ∀ t ∈ slots, ∀ key : String, c.table[key]? = some t → c'.table[key]? = some t)
    (cell : c'.cell = Function.update c.cell s x) : List.Forall₂ c'.Keeps slots entries := by
  refine congr h mapped fun t mem => ?_
  rw [cell, Function.update_of_ne (ne_of_mem_of_not_mem mem out)]

theorem not_loading (h : List.Forall₂ c.Keeps slots entries) (mem : s ∈ slots) :
    (c.cell s).content.isLoading = false := by
  induction h with
  | nil => cases mem
  | cons head _ ih =>
    cases mem with
    | head =>
      obtain ⟨expiry, content, -⟩ := head.stored
      rw [content]
      rfl
    | tail _ mem => exact ih mem

theorem find?_eq_none (h : List.Forall₂ c.Keeps slots entries) (unmapped : c.table[key]? = none) :
    entries.find? (·.key == key) = none := by
  induction h with
  | nil => rfl
  | @cons s e slots entries head _ ih =>
    have other : e.key ≠ key := by
      rintro rfl
      cases unmapped.symm.trans head.mapped
    rw [List.find?_cons_of_neg (by simpa using other), ih]

theorem find?_eq_some (h : List.Forall₂ c.Keeps slots entries) (steady : c.Steady)
    (mapped : c.table[key]? = some s) (mem : s ∈ slots) :
    ∃ e, entries.find? (·.key == key) = some e ∧ e.key = key ∧ c.Keeps s e := by
  induction h with
  | nil => cases mem
  | @cons t e slots entries head _ ih =>
    by_cases same : e.key = key
    · obtain rfl := (head.slot_eq_iff steady mapped).2 same
      exact ⟨e, List.find?_cons_of_pos (by simpa using same), same, head⟩
    · rw [List.find?_cons_of_neg (by simpa using same)]
      refine ih ((List.mem_cons.1 mem).resolve_left fun is => ?_)
      exact same ((head.slot_eq_iff steady mapped).1 is.symm)

theorem keys_eq (h : List.Forall₂ c.Keeps slots entries) (steady : c.Steady) :
    slots.filterMap c.owner? = entries.map Lru.Entry.key := by
  induction h with
  | nil => rfl
  | @cons s e slots entries head _ ih =>
    rw [List.filterMap_cons_some ((steady.table_iff e.key s).1 head.mapped), List.map_cons, ih]

end Keeps

namespace Mirrors

variable {c c' : Cache α} {l : Lru α} {key : String} {s : Slot} {e : Lru.Entry α}

protected theorem record (h : c.Mirrors l) (e : Event) : (c.record e).Mirrors l :=
  ⟨(Coherent.record h.steady e).steady, h.capacity,
    Keeps.congr h.entries (fun _ _ _ => id) fun _ _ => rfl⟩

theorem find?_of_unmapped (h : c.Mirrors l) (unmapped : c.table[key]? = none) :
    l.find? key = none := Keeps.find?_eq_none h.entries unmapped

theorem find?_of_mapped (h : c.Mirrors l) (mapped : c.table[key]? = some s) :
    ∃ e, l.find? key = some e ∧ e.key = key ∧ c.Keeps s e :=
  Keeps.find?_eq_some h.entries h.steady mapped (h.steady.linked_of_mapped mapped)

theorem erase (h : c.Mirrors l) (mapped : c.table[key]? = some s) :
    List.Forall₂ c.Keeps (c.links.recency.erase s) (l.erase key).entries := by
  rw [h.steady.threads.nodup_linked.erase_eq_filter]
  refine List.rel_filter ?_ h.entries
  intro t e keeps
  simpa using not_congr (keeps.slot_eq_iff h.steady mapped)

theorem erase_of_unmapped (h : c.Mirrors l) (unmapped : c.table[key]? = none) :
    l.erase key = l := by
  have absent := List.find?_eq_none.1 (h.find?_of_unmapped unmapped)
  rw [Lru.erase, List.filter_eq_self.2]
  intro e mem
  simpa using absent e mem

theorem contains_eq (h : c.Mirrors l) (key : String) : c.contains key = l.contains key := by
  rw [contains, Std.TreeMap.contains_eq_isSome_getElem?, Lru.contains]
  cases mapped : c.table[key]? with
  | none =>
    rw [h.find?_of_unmapped mapped]
    rfl
  | some s =>
    obtain ⟨e, found, -⟩ := h.find?_of_mapped mapped
    rw [found]
    rfl

theorem peek_eq (h : c.Mirrors l) (now : Instant) (key : String) :
    c.peek now key = l.peek now key := by
  rw [peek, Lru.peek]
  cases mapped : c.table[key]? with
  | none =>
    rw [h.find?_of_unmapped mapped]
    rfl
  | some s =>
    obtain ⟨e, found, -, keeps⟩ := h.find?_of_mapped mapped
    obtain ⟨expiry, content, fresh⟩ := keeps.stored
    rw [found, Option.bind_some, Option.bind_some, content, Content.fresh?]
    exact if_congr (fresh now) rfl rfl

theorem keys_eq (h : c.Mirrors l) : c.keys = l.keys := by
  rw [Coherent.keys_eq h.steady, Keeps.keys_eq h.entries h.steady, Lru.keys]

theorem size_eq (h : c.Mirrors l) : c.size = l.size := by
  rw [Coherent.size_eq h.steady, h.keys_eq, Lru.keys, List.length_map, Lru.size]

theorem full_iff (h : c.Mirrors l) :
    l.entries.length = l.capacity ↔ c.links.freeStack = [] := by
  have count := Coherent.count_slots h.steady
  rw [h.entries.length_eq, h.capacity] at count
  rw [← List.length_eq_zero_iff]
  omega

theorem victim?_eq (h : c.Mirrors l) : c.victim? = c.links.recency.getLast? := by
  rw [Coherent.victim?_eq h.steady, ← List.head?_reverse]
  cases oldest : c.links.recency.reverse with
  | nil => rfl
  | cons s slots =>
    have mem : s ∈ c.links.recency := List.mem_reverse.1 (oldest ▸ List.mem_cons_self)
    rw [List.find?_cons_of_pos (by rw [Keeps.not_loading h.entries mem]; rfl), List.head?_cons,
      Option.some_or]

end Mirrors

namespace Awaits

variable {c : Cache α} {l : Lru α} {key : String} {s : Slot}

protected theorem record (h : c.Awaits key s l) (e : Event) : (c.record e).Awaits key s l := by
  obtain ⟨slots, recency, entries⟩ := h.entries
  exact ⟨(Coherent.record h.steady e).steady, h.capacity, h.mapped, h.loading, slots, recency,
    Keeps.congr entries (fun _ _ _ => id) fun _ _ => rfl⟩

theorem complete (h : c.Awaits key s l) (now : Instant) (ttl : Duration)
    (outcome : Except (LoadError ε) α) :
    (c.complete now key ⟨s, (c.cell s).generation⟩ ttl outcome).1.Mirrors
      (l.settle now key ttl outcome) := by
  obtain ⟨slots, recency, entries⟩ := h.entries
  have nodup := h.steady.threads.nodup_linked
  rw [recency, List.nodup_cons] at nodup
  obtain ⟨steady, completed⟩ :=
    h.steady.complete now key ⟨s, (c.cell s).generation⟩ ttl outcome
  have capacity := c.capacity_complete now key ⟨s, (c.cell s).generation⟩ ttl outcome
  generalize (c.complete now key ⟨s, (c.cell s).generation⟩ ttl outcome).1 = c'
    at steady completed capacity
  cases completed with
  | displaced displaced =>
    rw [holds_iff.2 ⟨h.mapped, h.loading, rfl⟩] at displaced
    cases displaced
  | settled _ settled =>
    cases outcome with
    | ok value =>
      obtain ⟨table, cell, recency', -⟩ := settled
      rw [recency, List.erase_cons_head] at recency'
      refine ⟨steady, capacity.trans h.capacity, recency' ▸ .cons ⟨?_, .after now ttl, ?_, ?_⟩ ?_⟩
      · rw [table]
        exact h.mapped
      · rw [cell, Function.update_self]
        rfl
      · intro later
        exact Expiry.isFresh_after later now ttl
      · refine Keeps.frame entries nodup.1 ?_ cell
        rw [table]
        exact fun _ _ _ => id
    | error error =>
      obtain ⟨table, cell, recency', -⟩ := settled
      rw [recency, List.erase_cons_head] at recency'
      refine ⟨steady, capacity.trans h.capacity, recency' ▸ Keeps.frame entries nodup.1 ?_ cell⟩
      rw [table]
      intro t mem j mapped
      exact getElem?_erase_of_slot_ne h.mapped mapped (ne_of_mem_of_not_mem mem nodup.1)

theorem settle (h : c.Awaits key s l) (now : Instant) (ttl : Duration) {generation : UInt64}
    (current : (c.cell s).generation = generation) (outcome : Except (LoadError ε) α) :
    (c.settle now key ttl (some ⟨s, generation⟩) outcome).1.Mirrors
      (l.settle now key ttl outcome) := by
  subst current
  exact (h.record (loadEvent outcome)).complete now ttl outcome

end Awaits

namespace Mirrors

variable {c c' : Cache α} {l : Lru α} {key old : String} {s : Slot} {value : α} {expiry : Expiry}
  {free : List Slot}

theorem hit (h : c.Mirrors l) (steady : c'.Steady) (capacity : c'.capacity = c.capacity)
    (mapped : c.table[key]? = some s) (keeps : c.Keeps s e)
    (shows : c'.Shows c.table c.cell (s :: c.links.recency.erase s) free) :
    c'.Mirrors ((l.erase key).push e) := by
  have same : List.Forall₂ c.Keeps (s :: c.links.recency.erase s) ((l.erase key).push e).entries :=
    .cons keeps (h.erase mapped)
  refine ⟨steady, capacity.trans h.capacity, shows.recency ▸ Keeps.congr same ?_ ?_⟩
  · rw [shows.table]
    exact fun _ _ _ => id
  · rw [shows.cell]
    exact fun _ _ => rfl

theorem reload (h : c.Mirrors l) (steady : c'.Steady) (capacity : c'.capacity = c.capacity)
    (mapped : c.table[key]? = some s)
    (shows : c'.Shows c.table (Function.update c.cell s (c.cell s).beginLoad)
      (s :: c.links.recency.erase s) free) : c'.Awaits key s (l.erase key) := by
  obtain ⟨table, cell, recency, -⟩ := shows
  refine ⟨steady, capacity.trans h.capacity, ?_, ?_, _, recency, ?_⟩
  · rw [table]
    exact mapped
  · rw [cell, Function.update_self]
    rfl
  · refine Keeps.frame (h.erase mapped) h.steady.threads.nodup_linked.not_mem_erase ?_ cell
    rw [table]
    exact fun _ _ _ => id

theorem fill (h : c.Mirrors l) (steady : c'.Steady) (capacity : c'.capacity = c.capacity)
    (unmapped : c.table[key]? = none) (top : c.links.freeStack = s :: free)
    (shows : c'.Shows (c.table.insert key s) (Function.update c.cell s (c.cell s).beginLoad)
      (s :: c.links.recency) free) : c'.Awaits key s l.makeRoom := by
  obtain ⟨table, cell, recency, -⟩ := shows
  have room : l.makeRoom = l := by
    rw [Lru.makeRoom, if_neg]
    rw [h.full_iff, top]
    exact List.cons_ne_nil s free
  have out : s ∉ c.links.recency := fun mem =>
    h.steady.threads.disjoint mem (top ▸ List.mem_cons_self)
  have same := capacity.trans (h.capacity.trans l.capacity_makeRoom.symm)
  refine ⟨steady, same, ?_, ?_, _, recency, ?_⟩
  · rw [table, Std.TreeMap.getElem?_insert_self]
  · rw [cell, Function.update_self]
    rfl
  · rw [room]
    refine Keeps.frame h.entries out ?_ cell
    intro t _ j mapped
    rw [table, getElem?_insert_of_ne]
    · exact mapped
    · rintro rfl
      cases unmapped.symm.trans mapped

theorem evict (h : c.Mirrors l) (steady : c'.Steady) (capacity : c'.capacity = c.capacity)
    (unmapped : c.table[key]? = none) (full : c.links.freeStack = []) (victim : c.victim? = some s)
    (owned : c.table[old]? = some s)
    (shows : c'.Shows ((c.table.erase old).insert key s)
      (Function.update c.cell s (c.cell s).reset.beginLoad) (s :: c.links.recency.erase s) []) :
    c'.Awaits key s l.makeRoom := by
  obtain ⟨table, cell, recency, -⟩ := shows
  have nodup := h.steady.threads.nodup_linked
  have room : l.makeRoom = { l with entries := l.entries.dropLast } := by
    rw [Lru.makeRoom, if_pos (h.full_iff.2 full)]
  have last : c.links.recency.erase s = c.links.recency.dropLast := by
    rw [h.victim?_eq, List.getLast?_eq_some_iff] at victim
    obtain ⟨newer, is⟩ := victim
    rw [is, List.nodup_append_comm, List.singleton_append, List.nodup_cons] at nodup
    rw [is, List.erase_append_right _ nodup.1, List.erase_cons_head, List.append_nil,
      List.dropLast_concat]
  have same := capacity.trans (h.capacity.trans l.capacity_makeRoom.symm)
  refine ⟨steady, same, ?_, ?_, _, recency, ?_⟩
  · rw [table, Std.TreeMap.getElem?_insert_self]
  · rw [cell, Function.update_self]
    rfl
  · have rest : List.Forall₂ c.Keeps (c.links.recency.erase s) l.makeRoom.entries := by
      rw [room, last, List.dropLast_eq_take, List.dropLast_eq_take, h.entries.length_eq]
      exact List.forall₂_take _ h.entries
    refine Keeps.frame rest nodup.not_mem_erase ?_ cell
    intro t mem j mapped
    rw [table, getElem?_insert_of_ne]
    · exact getElem?_erase_of_slot_ne owned mapped (ne_of_mem_of_not_mem mem nodup.not_mem_erase)
    · rintro rfl
      cases unmapped.symm.trans mapped

theorem get (h : c.Mirrors l) (positive : 0 < l.capacity) (now : Instant) (key : String)
    (ttl : Duration) (load : String → Except (LoadError ε) α) :
    (c.get now key ttl load).1.Mirrors (l.get now key ttl load).1 ∧
      (c.get now key ttl load).2 = some (l.get now key ttl load).2 := by
  unfold Cache.get Lru.get
  cases zero : ttl.isZero with
  | true =>
    rw [enter_bypass c now key zero, if_pos rfl]
    exact ⟨(h.record .bypass).record _, rfl⟩
  | false =>
    rw [enter_lookup c now key zero, if_neg Bool.false_ne_true]
    obtain ⟨steady, looked⟩ := h.steady.lookup now key
    have capacity := c.capacity_lookup now key
    generalize c.lookup now key = result at steady looked capacity
    obtain ⟨c', lookup⟩ := result
    cases looked with
    | inFlight s mapped loading same =>
      have idle := Keeps.not_loading h.entries (h.steady.linked_of_mapped mapped)
      rw [loading] at idle
      cases idle
    | hit s value expiry mapped stored fresh shows =>
      obtain ⟨e, found, -, keeps⟩ := h.find?_of_mapped mapped
      obtain ⟨rfl, before⟩ := keeps.of_stored stored now
      simp only [found, before.1 fresh, admitted, if_true]
      exact ⟨h.hit steady capacity mapped keeps shows, trivial⟩
    | reload s value expiry mapped stored stale shows =>
      obtain ⟨e, found, -, keeps⟩ := h.find?_of_mapped mapped
      obtain ⟨rfl, before⟩ := keeps.of_stored stored now
      rw [← Bool.not_eq_true, before] at stale
      simp only [found, stale, admitted, if_false]
      have awaits := h.reload steady capacity mapped shows
      refine ⟨awaits.settle now ttl ?_ (load key), by rw [settle_snd]⟩
      rw [shows.cell, Function.update_self]
    | fill s free unmapped top shows =>
      simp only [h.find?_of_unmapped unmapped, admitted]
      have awaits := h.fill steady capacity unmapped top shows
      refine ⟨awaits.settle now ttl ?_ (load key), by rw [settle_snd]⟩
      rw [shows.cell, Function.update_self]
    | evict s old unmapped full victim owned shows =>
      simp only [h.find?_of_unmapped unmapped, admitted]
      have awaits := h.evict steady capacity unmapped full victim owned shows
      refine ⟨awaits.settle now ttl ?_ (load key), by rw [settle_snd]⟩
      rw [shows.cell, Function.update_self]
    | unavailable empty same =>
      rw [h.capacity] at empty
      omega

theorem delete (h : c.Mirrors l) (key : String) :
    (c.delete key).1.Mirrors (l.delete key).1 ∧ (c.delete key).2 = (l.delete key).2 := by
  obtain ⟨steady, deleted⟩ := h.steady.delete key
  have capacity := c.capacity_delete key
  rw [Lru.delete, ← h.contains_eq, contains, Std.TreeMap.contains_eq_isSome_getElem?]
  generalize c.delete key = result at steady deleted capacity
  obtain ⟨c', answer⟩ := result
  cases deleted with
  | dropped s mapped shows =>
    obtain ⟨table, cell, recency, -⟩ := shows
    have out := h.steady.threads.nodup_linked.not_mem_erase (a := s)
    rw [mapped]
    refine ⟨⟨steady, capacity.trans h.capacity, recency ▸ Keeps.frame (h.erase mapped) out ?_ cell⟩,
      rfl⟩
    intro t mem j mapped'
    rw [table]
    exact getElem?_erase_of_slot_ne mapped mapped' (ne_of_mem_of_not_mem mem out)
  | absent unmapped same =>
    subst same
    rw [unmapped, h.erase_of_unmapped unmapped]
    exact ⟨h, rfl⟩

theorem respond (h : c.Mirrors l) (positive : 0 < l.capacity) (now : Instant)
    (r : Serial.Request ε α) : (c.respond now r).1.Mirrors (l.respond now r).1 ∧
      (c.respond now r).2 = (l.respond now r).2 := by
  cases r with
  | get key ttl load =>
    obtain ⟨mirrors, served⟩ := h.get positive now key ttl load
    rw [Cache.respond]
    generalize c.get now key ttl load = result at mirrors served
    obtain ⟨c', _⟩ := result
    cases served
    exact ⟨mirrors, rfl⟩
  | peek key => exact ⟨h, congrArg Serial.Response.found (h.peek_eq now key)⟩
  | contains key => exact ⟨h, congrArg Serial.Response.flag (h.contains_eq key)⟩
  | delete key =>
    obtain ⟨mirrors, answer⟩ := h.delete key
    exact ⟨mirrors, congrArg Serial.Response.flag answer⟩
  | size => exact ⟨h, congrArg Serial.Response.count h.size_eq⟩
  | keys => exact ⟨h, congrArg Serial.Response.keys h.keys_eq⟩

theorem responses_eq (h : c.Mirrors l) (positive : 0 < l.capacity) (now : Instant)
    (es : List (Serial.Event ε α)) :
    Serial.responses Cache.respond c now es = Serial.responses Lru.respond l now es := by
  induction es generalizing c l now with
  | nil => rfl
  | cons e es ih =>
    cases e with
    | ask r =>
      obtain ⟨mirrors, answer⟩ := h.respond positive now r
      rw [Serial.responses, Serial.responses, answer, ih mirrors]
      rw [Lru.capacity_respond]
      exact positive
    | advance span => exact ih h positive _

theorem ofCapacity (n : Nat) : (Cache.ofCapacity n : Cache α).Mirrors (.ofCapacity n) := by
  have fresh := coherent_ofCapacity (α := α) n
  refine ⟨fresh.steady, Arena.capacity_ofFn n _, ?_⟩
  rw [fresh.threads.recency_eq]
  exact .nil

end Mirrors

end Cache

namespace Serial

/-- To requests that come one after the other a cache answers as the plain list does: its slots,
its free stack and its generations never show. -/
theorem responses_ofCapacity (n : Nat) (now : Instant) (es : List (Event ε α)) :
    responses Cache.respond (.ofCapacity (n + 1)) now es =
      responses Lru.respond (.ofCapacity (n + 1)) now es :=
  (Cache.Mirrors.ofCapacity (n + 1)).responses_eq n.succ_pos now es

end Serial

end Arbiter
