import Arbiter.Cache.Audit
import Arbiter.Proofs.Links.Audit
import Arbiter.Proofs.Cache.Records
import Arbiter.Proofs.Cache.Service.Step
import Mathlib.Data.List.Nodup

namespace Arbiter

namespace Cache

universe u v

variable {α : Type u} {ε : Type v}

def Maps (c : Cache α) (s : Slot) : Prop := ∃ key : String, c.table[key]? = some s

structure Consistent (c : Cache α) (n : Nat) : Prop where
  capacity : c.capacity = n
  injective : ∀ (j k : String) (s : Slot), c.table[j]? = some s → c.table[k]? = some s → j = k
  owner_iff : ∀ (key : String) (s : Slot), c.table[key]? = some s ↔ c.owner? s = some key
  unowned_iff : ∀ s, c.owner? s = none ↔ ¬ c.Maps s
  linked_iff : ∀ s, c.links.isLinked s = true ↔ c.Maps s
  listed_iff : ∀ s, s ∈ c.links.recency ↔ c.Maps s
  free_iff : ∀ s : Slot, c.links.isFree s = true ↔ s.offset < n ∧ ¬ c.Maps s
  stacked_iff : ∀ s : Slot, s ∈ c.links.freeStack ↔ s.offset < n ∧ ¬ c.Maps s
  attached : ∀ s : Slot, c.links.nodes[s]? ≠ some Link.detached
  keys_nodup : c.keys.Nodup
  mem_keys : ∀ key, key ∈ c.keys ↔ c.contains key = true
  size_eq : c.size = c.keys.length
  size_le : c.size ≤ n
  unmapped : ∀ s, ¬ c.Maps s →
    (c.cell s).content.isLoading = false ∧ (c.cell s).content.value? = none
  mapped : ∀ s, c.Maps s →
    (c.cell s).content.isLoading = true ∧ (c.cell s).content.value? = none ∧
      (c.cell s).content.expiry? = none ∨
    (c.cell s).content.isLoading = false ∧ (c.cell s).content.value?.isSome = true ∧
      (c.cell s).content.expiry?.isSome = true
  audit : c.audit = .ok ()

structure Raw.Orderly (r : Raw α) : Prop where
  unmapped : ∀ s, (∀ key : String, r.table[key]? ≠ some s) →
    (r.state s).loading = false ∧ (r.state s).value = none ∧ (r.state s).expiry = none
  mapped : ∀ (key : String) (s : Slot), r.table[key]? = some s →
    (r.state s).loading = true ∧ (r.state s).value = none ∧ (r.state s).expiry = none ∨
    (r.state s).loading = false ∧ (r.state s).value.isSome = true ∧
      (r.state s).expiry.isSome = true

namespace Coherent

variable {c : Cache α} {linked free : List Slot}

theorem keys_eq (h : c.Coherent linked free none) : c.keys = linked.filterMap c.owner? := by
  rw [keys, h.threads.recency_eq]

theorem length_keys (h : c.Coherent linked free none) : c.keys.length = linked.length := by
  rw [h.keys_eq, List.length_filterMap_eq_countP, List.countP_eq_length]
  intro s hs
  exact Option.isSome_iff_ne_none.2 ((h.linked_iff s).1 hs)

theorem keys_nodup (h : c.Coherent linked free none) : c.keys.Nodup := by
  rw [h.keys_eq]
  apply h.threads.nodup_linked.filterMap
  intro s t key hs ht
  rw [Option.mem_def, ← h.table_iff] at hs ht
  exact Option.some.inj (hs.symm.trans ht)

theorem mem_keys (h : c.Coherent linked free none) (key : String) :
    key ∈ c.keys ↔ c.contains key = true := by
  rw [h.keys_eq, List.mem_filterMap, contains, Std.TreeMap.contains_eq_isSome_getElem?,
    Option.isSome_iff_exists]
  constructor
  · rintro ⟨s, -, e⟩
    exact ⟨s, (h.table_iff key s).2 e⟩
  · rintro ⟨s, e⟩
    exact ⟨s, h.linked_of_mapped e, (h.table_iff key s).1 e⟩

theorem size_eq (h : c.Coherent linked free none) : c.size = c.keys.length := by
  have perm : c.keys.Perm c.table.keys := by
    refine (List.perm_ext_iff_of_nodup h.keys_nodup Std.TreeMap.nodup_keys).2 fun key => ?_
    rw [h.mem_keys, Std.TreeMap.mem_keys, contains, Std.TreeMap.contains_iff_mem]
  rw [perm.length_eq, Std.TreeMap.length_keys, size]

theorem not_detached (h : c.Coherent linked free none) (s : Slot) :
    c.links.nodes[s]? ≠ some Link.detached := by
  intro node
  have range : s.offset < c.capacity := by
    rw [← h.links_capacity]
    exact Arena.lt_of_some node
  rcases h.placed s range with hl | hf | e
  · exact h.threads.not_linked_of_detached node hl
  · exact h.threads.not_free_of_detached node hf
  · cases e

theorem count_slots (h : c.Coherent linked free none) :
    linked.length + free.length = c.capacity := by
  have none_detached : c.links.detachedCount = 0 := by
    rw [Links.detachedCount, Arena.countP_cells, List.length_eq_zero_iff, List.filter_eq_nil_iff]
    intro s _ is
    obtain ⟨node, e, is⟩ := Option.any_eq_true _ _ |>.1 is
    cases node <;> first | exact h.not_detached s e | cases is
  have total := h.threads.count_slots
  rwa [none_detached, Nat.add_zero, h.links_capacity] at total

theorem count_owners (h : c.Coherent linked free none) :
    c.owners.cells.toList.countP Option.isSome = linked.length := by
  rw [Arena.countP_cells]
  refine ((List.perm_ext_iff_of_nodup (Arena.nodup_slots.filter _) h.threads.nodup_linked).2
    fun s => ?_).length_eq
  rw [List.mem_filter, Arena.mem_slots, h.linked_iff]
  have owned : c.owners[s]?.any Option.isSome = true ↔ c.owner? s ≠ none := by
    rw [owner?]
    cases c.owners[s]? with
    | none => simp
    | some owner => cases owner <;> simp
  rw [owned]
  refine ⟨And.right, fun ho => ⟨?_, ho⟩⟩
  rw [h.owners_capacity]
  exact h.lt_of_linked ((h.linked_iff s).2 ho)

theorem isLinked_iff (h : c.Coherent linked free none) (s : Slot) :
    c.links.isLinked s = true ↔ s ∈ linked := h.threads.isLinked_iff

theorem isFree_iff (h : c.Coherent linked free none) (s : Slot) :
    c.links.isFree s = true ↔ s ∈ free := h.threads.isFree_iff

theorem auditKey (h : c.Coherent linked free none) {entry : String × Slot}
    (he : entry ∈ c.table.toList) : c.auditKey entry = .ok () := by
  obtain ⟨key, s⟩ := entry
  rw [Std.TreeMap.mem_toList_iff_getElem?_eq_some] at he
  have owner := (h.table_iff key s).1 he
  have listed := (h.isLinked_iff s).2 (h.linked_of_mapped he)
  simp [Cache.auditKey, owner, listed, pure, Except.pure]

theorem audit (h : c.Coherent linked free none) : c.audit = .ok () := by
  have entries : c.table.toList.forM c.auditKey = .ok () := by
    have each := fun entry (he : entry ∈ c.table.toList) => h.auditKey he
    generalize c.table.toList = entries at each
    induction entries with
    | nil => rfl
    | cons entry entries ih =>
      show (c.auditKey entry >>= fun _ => entries.forM c.auditKey) = _
      rw [each entry List.mem_cons_self]
      exact ih fun entry he => each entry (List.mem_cons_of_mem _ he)
  have size := h.size_eq.trans h.length_keys
  rw [Cache.audit, h.threads.audit, entries, h.count_owners, size, h.threads.length,
    h.threads.freeLength, h.count_slots]
  simp [Except.mapError, pure, Except.pure, bind, Except.bind]

theorem maps_iff (h : c.Coherent linked free none) (s : Slot) : c.Maps s ↔ s ∈ linked :=
  h.mapped_iff.symm

theorem free_iff (h : c.Coherent linked free none) (s : Slot) :
    s ∈ free ↔ s.offset < c.capacity ∧ ¬ c.Maps s := by
  rw [h.maps_iff]
  constructor
  · intro hf
    exact ⟨h.links_capacity ▸ h.threads.lt_of_free hf, fun hl => h.threads.disjoint hl hf⟩
  · rintro ⟨range, out⟩
    exact ((h.placed s range).resolve_left out).resolve_right nofun

theorem consistent (h : c.Coherent linked free none) : c.Consistent c.capacity where
  capacity := rfl
  injective _ _ _ := h.table_injective
  owner_iff := h.table_iff
  unowned_iff s := by rw [h.maps_iff, h.linked_iff, Classical.not_not]
  linked_iff s := (h.isLinked_iff s).trans (h.maps_iff s).symm
  listed_iff s := by rw [h.threads.recency_eq, h.maps_iff]
  free_iff s := (h.isFree_iff s).trans (h.free_iff s)
  stacked_iff s := by rw [h.threads.freeStack_eq, h.free_iff]
  attached := h.not_detached
  keys_nodup := h.keys_nodup
  mem_keys := h.mem_keys
  size_eq := h.size_eq
  size_le := by
    rw [h.size_eq, h.length_keys, ← h.count_slots]
    exact Nat.le_add_right _ _
  unmapped s hs := by
    rw [h.maps_iff, h.linked_iff, Classical.not_not, ← h.vacant_iff] at hs
    rw [hs]
    exact ⟨rfl, rfl⟩
  mapped s hs := by
    rw [h.maps_iff, h.linked_iff, Ne, ← h.vacant_iff] at hs
    cases content : (c.cell s).content with
    | vacant => exact absurd content hs
    | loading => exact .inl ⟨rfl, rfl, rfl⟩
    | stored value expiry => exact .inr ⟨rfl, rfl, rfl⟩
  audit := h.audit

end Coherent

theorem Consistent.orderly {c : Cache α} {n : Nat} (h : c.Consistent n) : c.raw.Orderly where
  unmapped s free := by
    obtain ⟨idle, absent⟩ := h.unmapped s fun ⟨key, mapped⟩ => free key mapped
    rw [state_raw, Cell.state]
    refine ⟨idle, absent, ?_⟩
    cases content : (c.cell s).content with
    | vacant => rfl
    | loading => rfl
    | stored value expiry =>
      rw [content] at absent
      cases absent
  mapped key s owned := by
    rw [state_raw]
    exact h.mapped s ⟨key, owned⟩

/-- Whatever is asked of a cache, in whatever order, leaves it consistent, and so the states of its
slots, where the same is done to their fields one by one. -/
theorem consistent_run (n : Nat) (as : List (Action ε α)) :
    ((Service.ofCapacity n).run as).cache.Consistent n ∧
      (Raw.ofCapacity n).replay ((Service.ofCapacity n).log as) =
        ((Service.ofCapacity n).run as).cache.raw ∧
      ((Raw.ofCapacity n : Raw α).replay ((Service.ofCapacity n).log as)).Orderly := by
  have steady := Service.steady_run (Service.steady_ofCapacity n) as
  have consistent := steady.consistent
  rw [Service.capacity_run_ofCapacity] at consistent
  have same := (Service.ofCapacity n).raw_run as
  rw [show (Service.ofCapacity n).cache.raw = .ofCapacity n from raw_ofCapacity n] at same
  exact ⟨consistent, same, same ▸ consistent.orderly⟩

end Cache

end Arbiter
