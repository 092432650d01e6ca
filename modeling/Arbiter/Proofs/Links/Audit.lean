import Arbiter.Slot.Audit
import Arbiter.Proofs.Links.Threads

namespace Arbiter

namespace Arena

variable {β : Type*} {a : Arena β} {s : Slot}

theorem nodup_slots : a.slots.Nodup := List.nodup_range.map fun _ _ e => Slot.mk.inj e

theorem mem_slots : s ∈ a.slots ↔ s.offset < a.capacity := by
  cases s
  simp [slots]

theorem length_slots : a.slots.length = a.capacity := by simp [slots]

theorem countP_cells (p : β → Bool) :
    a.cells.toList.countP p = (a.slots.filter fun s => a[s]?.any p).length := by
  have cells : a.cells.toList.map some = a.slots.map (a[·]?) := by
    apply List.ext_getElem?
    intro i
    simp only [slots, List.getElem?_map, List.range_eq_range', getElem?_eq, Array.getElem?_toList,
      capacity]
    by_cases h : i < a.cells.size <;> simp [h]
  calc a.cells.toList.countP p = (a.cells.toList.map some).countP (Option.any p) := by
        rw [List.countP_map]
        rfl
    _ = a.slots.countP fun s => a[s]?.any p := by
        rw [cells, List.countP_map]
        rfl
    _ = (a.slots.filter fun s => a[s]?.any p).length := List.countP_eq_length_filter

end Arena

namespace Links

section Trail

variable {t : Trail} {s : Slot} {slots : List Slot}

theorem Trail.count_visits : (slots.foldl Trail.visit t).count = t.count + slots.length := by
  induction slots generalizing t with
  | nil => rfl
  | cons s slots ih =>
    rw [List.foldl_cons, ih, List.length_cons]
    exact Nat.add_right_comm _ _ _

theorem Trail.last_visits : (slots.foldl Trail.visit t).last = slots.getLast?.or t.last := by
  induction slots generalizing t with
  | nil => rfl
  | cons s slots ih =>
    rw [List.foldl_cons, ih, Trail.visit, List.getLast?_cons]
    cases slots.getLast? <;> rfl

theorem Trail.seen_visit_of_ne {u : Slot} (h : u ≠ s) : (t.visit s).seen[u]? = t.seen[u]? := by
  rw [Trail.visit, Arena.getElem?_set, if_neg h.symm]

theorem Trail.seen_visits_of_not_mem (h : s ∉ slots) :
    (slots.foldl Trail.visit t).seen[s]? = t.seen[s]? := by
  induction slots generalizing t with
  | nil => rfl
  | cons u slots ih =>
    rw [List.mem_cons, not_or] at h
    rw [List.foldl_cons, ih h.2, Trail.seen_visit_of_ne h.1]

theorem Trail.met_visit_of_ne {u : Slot} (h : u ≠ s) : (t.visit s).met u = t.met u :=
  congrArg (Option.getD · false) (seen_visit_of_ne h)

theorem Trail.met_visits_of_not_mem (h : s ∉ slots) :
    (slots.foldl Trail.visit t).met s = t.met s :=
  congrArg (Option.getD · false) (seen_visits_of_not_mem h)

end Trail

variable {l : Links} {linked free slots : List Slot}

theorem followRecency_eq {prev : Option Slot} {t : Trail} {fuel : Nat}
    (h : Chain l.nodes prev slots none) (nodup : slots.Nodup) (le : slots.length ≤ fuel)
    (last : t.last = prev) (unmet : ∀ s ∈ slots, t.met s = false) :
    l.followRecency fuel t slots.head? = .ok (slots.foldl Trail.visit t) := by
  induction slots generalizing prev t fuel with
  | nil => rw [List.head?_nil, followRecency, List.foldl_nil]
  | cons s slots ih =>
    rw [List.nodup_cons] at nodup
    cases fuel with
    | zero => cases le
    | succ fuel =>
      have rest := ih (t := t.visit s) h.2 nodup.2 (Nat.le_of_succ_le_succ le) rfl fun u hu => by
        rw [Trail.met_visit_of_ne (ne_of_mem_of_not_mem hu nodup.1)]
        exact unmet u (List.mem_cons_of_mem _ hu)
      simp [followRecency, h.1, unmet s, last, rest]

theorem followFree_eq {t : Trail} {fuel : Nat} (h : Stack l.nodes slots) (nodup : slots.Nodup)
    (le : slots.length ≤ fuel) (unmet : ∀ s ∈ slots, t.met s = false) :
    l.followFree fuel t slots.head? = .ok (slots.foldl Trail.visit t) := by
  induction slots generalizing t fuel with
  | nil => rw [List.head?_nil, followFree, List.foldl_nil]
  | cons s slots ih =>
    rw [List.nodup_cons] at nodup
    cases fuel with
    | zero => cases le
    | succ fuel =>
      have rest := ih (t := t.visit s) h.2 nodup.2 (Nat.le_of_succ_le_succ le) fun u hu => by
        rw [Trail.met_visit_of_ne (ne_of_mem_of_not_mem hu nodup.1)]
        exact unmet u (List.mem_cons_of_mem _ hu)
      simp [followFree, h.1, unmet s, rest]

namespace Threads

theorem perm_slots (h : l.Threads linked free) :
    (linked ++ (free ++ l.nodes.slots.filter fun s => l.nodes[s]?.any Link.isDetached)).Perm
      l.nodes.slots := by
  have detached : ∀ s, s ∈ (l.nodes.slots.filter fun s => l.nodes[s]?.any Link.isDetached) →
      l.nodes[s]? = some .detached := by
    intro s hs
    obtain ⟨node, e, is⟩ := Option.any_eq_true _ _ |>.1 (List.mem_filter.1 hs).2
    cases node <;> first | exact e | cases is
  refine (List.perm_ext_iff_of_nodup ?_ Arena.nodup_slots).2 ?_
  · refine List.nodup_append'.2 ⟨h.nodup_linked, List.nodup_append'.2 ⟨h.nodup_free,
      Arena.nodup_slots.filter _, ?_⟩, ?_⟩
    · intro s hf hd
      exact h.not_free_of_detached (detached s hd) hf
    · intro s hl hs
      rcases List.mem_append.1 hs with hf | hd
      · exact h.disjoint hl hf
      · exact h.not_linked_of_detached (detached s hd) hl
  · intro s
    rw [List.mem_append, List.mem_append, List.mem_filter, Arena.mem_slots]
    constructor
    · rintro (hl | hf | hd)
      · exact h.lt_of_linked hl
      · exact h.lt_of_free hf
      · exact hd.1
    · intro range
      cases e : l.nodes[s]? with
      | none => exact absurd (Arena.getElem?_eq_none_iff.1 e) (Nat.not_le_of_lt range)
      | some node =>
        rcases h.other s node e with hl | hf | rfl
        · exact .inl hl
        · exact .inr (.inl hf)
        · exact .inr (.inr ⟨range, rfl⟩)

theorem count_slots (h : l.Threads linked free) :
    linked.length + free.length + l.detachedCount = l.capacity := by
  have length := h.perm_slots.length_eq
  rw [detachedCount, Arena.countP_cells, Nat.add_assoc]
  rwa [List.length_append, List.length_append, Arena.length_slots] at length

theorem audit (h : l.Threads linked free) : l.audit = .ok () := by
  let blank : Trail := .start (.ofFn l.capacity fun _ => false)
  have unmet : ∀ s, blank.met s = false := by
    intro s
    show ((Arena.ofFn l.capacity fun _ => false)[s]?).getD false = false
    rw [Arena.getElem?_ofFn]
    split <;> rfl
  have linked_le := length_le_capacity h.nodup_linked fun _ => h.lt_of_linked
  have free_le := length_le_capacity h.nodup_free fun _ => h.lt_of_free
  have recency := followRecency_eq (t := blank) h.chain h.nodup_linked linked_le rfl
    fun s _ => unmet s
  have stack := followFree_eq (t := .start (linked.foldl Trail.visit blank).seen) h.stack
    h.nodup_free free_le fun s hs =>
      (Trail.met_visits_of_not_mem fun hl => h.disjoint hl hs).trans (unmet s)
  have total := h.count_slots
  rw [Links.audit, h.head]
  show (l.followRecency l.capacity blank linked.head? >>= _) = _
  rw [recency]
  simp only [bind, Except.bind, Trail.last_visits, Trail.count_visits, h.tail, h.length, h.top,
    stack, h.freeLength]
  simp [blank, Trail.start, total, pure, Except.pure]

end Threads

end Links

end Arbiter
