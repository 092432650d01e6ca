import Arbiter.Proofs.Cache.Representation

namespace Arbiter

namespace Cache

universe u

variable {α : Type u}

def Loading (c : Cache α) (key : String) : Prop :=
  ∃ s, c.table[key]? = some s ∧ (c.cell s).content = .loading

/-- The least recently used of the keys that are not loading or, where all are, of all. -/
inductive Victim (c : Cache α) (old : String) : Prop
  | idle (newer older : List String) (keys : c.keys = newer ++ old :: older)
      (idle : ¬ c.Loading old) (busy : ∀ j ∈ older, c.Loading j) : Victim c old
  | busy (newer : List String) (keys : c.keys = newer ++ [old]) (busy : ∀ j ∈ c.keys, c.Loading j) :
      Victim c old

section Loading

variable {c : Cache α} {key : String} {s : Slot}

theorem loading_iff (mapped : c.table[key]? = some s) :
    c.Loading key ↔ (c.cell s).content = .loading := by
  constructor
  · rintro ⟨t, mapped', loading⟩
    rw [mapped] at mapped'
    cases mapped'
    exact loading
  · exact fun loading => ⟨s, mapped, loading⟩

theorem isLoading_content_iff {x : Content α} : x.isLoading = true ↔ x = .loading := by
  cases x <;> simp [Content.isLoading]

theorem Victim.mem_keys {old : String} (h : c.Victim old) : old ∈ c.keys := by
  cases h with
  | idle newer older keys =>
    rw [keys]
    exact List.mem_append_right newer List.mem_cons_self
  | busy newer keys =>
    rw [keys]
    exact List.mem_append_right newer List.mem_cons_self

end Loading

namespace Steady

variable {c c' : Cache α} {key old j : String} {s t : Slot}

theorem mem_keys_iff (h : c.Steady) : j ∈ c.keys ↔ ∃ s, c.table[j]? = some s := by
  rw [Coherent.mem_keys h, contains, Std.TreeMap.contains_eq_isSome_getElem?,
    Option.isSome_iff_exists]

theorem not_mem_keys (h : c.Steady) (unmapped : c.table[j]? = none) : j ∉ c.keys := by
  rw [h.mem_keys_iff, unmapped]
  exact fun mapped => nomatch mapped

theorem owner?_congr (h : c.Steady) (h' : c'.Steady)
    (same : ∀ j : String, c'.table[j]? = some t ↔ c.table[j]? = some t) :
    c'.owner? t = c.owner? t := by
  apply Option.ext
  intro j
  rw [← h'.table_iff, same, h.table_iff]

theorem keys_erase (h : c.Steady) (mapped : c.table[key]? = some s) :
    (c.links.recency.erase s).filterMap c.owner? = c.keys.erase key := by
  rw [h.threads.nodup_linked.erase_eq_filter, (Coherent.keys_nodup h).erase_eq_filter, keys,
    List.filterMap_filter, List.filter_filterMap]
  apply List.filterMap_congr
  intro t mem
  obtain ⟨j, owned⟩ := Option.ne_none_iff_exists'.1 ((h.linked_iff t).1 mem)
  have mapped' := (h.table_iff j t).2 owned
  by_cases e : t = s
  · subst e
    have same := h.table_injective mapped' mapped
    simp [owned, same, Option.filter]
  · have other : j ≠ key := by
      rintro rfl
      exact e (Option.some.inj (mapped'.symm.trans mapped))
    simp [owned, e, other, Option.filter]

theorem keys_cons (h : c.Steady) (h' : c'.Steady) {slots : List Slot}
    (recency : c'.links.recency = s :: slots) (mapped : c'.table[key]? = some s)
    (same : ∀ t ∈ slots, ∀ j : String, c'.table[j]? = some t ↔ c.table[j]? = some t) :
    c'.keys = key :: slots.filterMap c.owner? := by
  rw [keys, recency, List.filterMap_cons_some ((h'.table_iff key s).1 mapped)]
  congr 1
  apply List.filterMap_congr
  exact fun t mem => h.owner?_congr h' (same t mem)

theorem victim (h : c.Steady) (victim : c.victim? = some s) (owned : c.table[old]? = some s) :
    c.Victim old := by
  have owner := (h.table_iff old s).1 owned
  rw [Coherent.victim?_eq h, Option.or_eq_some_iff] at victim
  rcases victim with found | ⟨none_idle, last⟩
  · obtain ⟨idle, older, newer, split, busy⟩ := List.find?_eq_some_iff_append.1 found
    rw [List.reverse_eq_iff, List.reverse_append, List.reverse_cons, List.append_assoc,
      List.singleton_append] at split
    refine .idle (newer.reverse.filterMap c.owner?) (older.reverse.filterMap c.owner?) ?_ ?_ ?_
    · rw [keys, split, List.filterMap_append, List.filterMap_cons_some owner]
    · rw [loading_iff owned, ← isLoading_content_iff]
      simpa using idle
    · intro j mem
      obtain ⟨t, mem, owned'⟩ := List.mem_filterMap.1 mem
      rw [loading_iff ((h.table_iff j t).2 owned'), ← isLoading_content_iff]
      simpa using busy t (List.mem_reverse.1 mem)
  · obtain ⟨newer, split⟩ := List.getLast?_eq_some_iff.1 last
    refine .busy (newer.filterMap c.owner?) ?_ ?_
    · rw [keys, split, List.filterMap_append, List.filterMap_cons_some owner, List.filterMap_nil]
    · intro j mem
      obtain ⟨t, mapped⟩ := h.mem_keys_iff.1 mem
      rw [loading_iff mapped, ← isLoading_content_iff]
      have listed := List.mem_reverse.2 (h.linked_of_mapped mapped)
      simpa using List.find?_eq_none.1 none_idle t listed

end Steady

namespace Shows

variable {c c' : Cache α} {key : String} {s : Slot} {cell : Slot → Cell α} {free : List Slot}

theorem keys_touch (h : c.Steady) (h' : c'.Steady) (mapped : c.table[key]? = some s)
    (shows : c'.Shows c.table cell (s :: c.links.recency.erase s) free) :
    c'.keys = key :: c.keys.erase key := by
  rw [h.keys_cons h' shows.recency (shows.table ▸ mapped), h.keys_erase mapped]
  intro t _ j
  rw [shows.table]

theorem keys_drop (h : c.Steady) (h' : c'.Steady) (mapped : c.table[key]? = some s)
    (shows : c'.Shows (c.table.erase key) cell (c.links.recency.erase s) free) :
    c'.keys = c.keys.erase key := by
  rw [← h.keys_erase mapped, keys, shows.recency]
  apply List.filterMap_congr
  intro t mem
  apply h.owner?_congr h'
  intro j
  rw [shows.table, getElem?_erase_eq_some, and_iff_left_of_imp]
  rintro mapped' rfl
  rw [mapped] at mapped'
  cases mapped'
  exact h.threads.nodup_linked.not_mem_erase mem

end Shows

theorem Claimed.keys {c c' : Cache α} {key : String} {s : Slot} {lag : Nat} {slots : List Slot}
    (claimed : c.Claimed key s lag c') (h : c.Steady) (h' : c'.Steady)
    (recency : c'.links.recency = s :: slots) (out : s ∉ slots) :
    c'.keys = key :: slots.filterMap c.owner? := by
  refine h.keys_cons h' recency claimed.mapped fun t mem j => ?_
  have ne : t ≠ s := ne_of_mem_of_not_mem mem out
  by_cases e : j = key
  · subst e
    rw [claimed.mapped]
    refine iff_of_false ?_ fun mapped => ne (claimed.idle t mapped).1
    rintro ⟨⟩
    exact ne rfl
  · rw [claimed.others j e, and_iff_left ne]

end Cache

end Arbiter
