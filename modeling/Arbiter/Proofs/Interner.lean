import Arbiter.Interner
import Mathlib.Data.List.Nodup

namespace Arbiter

namespace Interner

def Coherent (i : Interner) : Prop :=
  ∀ (name : String) (h : Nat), i.handle? name = some h ↔ i.name? h = some name

variable {i : Interner} {name other : String} {h : Nat}

theorem size_eq (i : Interner) : i.size = i.toList.length := rfl

theorem name?_eq (i : Interner) (h : Nat) : i.name? h = i.toList[h]? := by
  rw [name?, toList, Array.getElem?_toList]

theorem coherent_empty : Coherent ∅ := by
  intro name h
  have none : (∅ : Interner).handle? name = none := Std.TreeMap.getElem?_emptyc
  rw [none]
  exact iff_of_false nofun nofun

theorem lt_of_name? (e : i.name? h = some name) : h < i.size := by
  rw [name?_eq] at e
  exact (List.getElem?_eq_some_iff.1 e).1

theorem intern_of_known (known : i.handle? name = some h) : i.intern name = (i, h) := by
  rw [intern, known]

theorem intern_of_new (new : i.handle? name = none) :
    i.intern name = (⟨i.index.insert name i.size, i.names.push name⟩, i.size) := by
  rw [intern, new]

namespace Coherent

theorem handle?_eq_none (c : i.Coherent) : i.handle? name = none ↔ name ∉ i.toList := by
  constructor
  · intro none mem
    obtain ⟨h, e⟩ := List.getElem?_of_mem mem
    rw [← name?_eq, ← c name h, none] at e
    cases e
  · intro out
    cases e : i.handle? name with
    | none => rfl
    | some h =>
      rw [c, name?_eq] at e
      exact absurd (List.mem_of_getElem? e) out

theorem nodup (c : i.Coherent) : i.toList.Nodup := by
  rw [List.nodup_iff_getElem?_ne_getElem?]
  intro j k lt range same
  obtain ⟨name, e⟩ : ∃ name, i.toList[k]? = some name := ⟨_, List.getElem?_eq_getElem range⟩
  rw [e, ← name?_eq, ← c] at same
  rw [← name?_eq, ← c, same] at e
  cases e
  exact Nat.lt_irrefl _ lt

theorem name?_iff (c : i.Coherent) :
    i.name? h = some name ↔ name ∈ i.toList ∧ i.toList.idxOf name = h := by
  rw [name?_eq]
  constructor
  · intro e
    obtain ⟨lt, rfl⟩ := List.getElem?_eq_some_iff.1 e
    exact ⟨List.getElem_mem lt, c.nodup.idxOf_getElem h lt⟩
  · rintro ⟨mem, rfl⟩
    have lt := List.idxOf_lt_length_of_mem mem
    rw [List.getElem?_eq_getElem lt, List.getElem_idxOf lt]

theorem handle?_iff (c : i.Coherent) :
    i.handle? name = some h ↔ name ∈ i.toList ∧ i.toList.idxOf name = h :=
  (c name h).trans c.name?_iff

theorem intern_of_mem (c : i.Coherent) (mem : name ∈ i.toList) :
    ∃ h, i.intern name = (i, h) ∧ h < i.size := by
  cases e : i.handle? name with
  | some h => exact ⟨h, intern_of_known e, lt_of_name? ((c name h).1 e)⟩
  | none => exact absurd mem (c.handle?_eq_none.1 e)

theorem toList_intern (c : i.Coherent) (name : String) : (i.intern name).1.toList =
    if name ∈ i.toList then i.toList else i.toList ++ [name] := by
  split
  · obtain ⟨h, known, -⟩ := c.intern_of_mem ‹_›
    rw [known]
  · rw [intern_of_new (c.handle?_eq_none.2 ‹_›)]
    simp [toList]

theorem name?_intern (c : i.Coherent) (name : String) :
    (i.intern name).1.name? (i.intern name).2 = some name := by
  rw [intern]
  cases e : i.handle? name with
  | some h => exact (c name h).1 e
  | none => simp [name?, size]

protected theorem intern (c : i.Coherent) (name : String) : (i.intern name).1.Coherent := by
  intro other h
  by_cases mem : name ∈ i.toList
  · obtain ⟨_, known, -⟩ := c.intern_of_mem mem
    rw [known]
    exact c other h
  · have new := c.handle?_eq_none.2 mem
    rw [intern_of_new new, handle?, name?, Std.TreeMap.getElem?_insert, Array.getElem?_push]
    simp only [Std.LawfulEqCmp.compare_eq_iff_eq]
    by_cases same : name = other
    · subst same
      rw [if_pos rfl]
      by_cases last : h = i.names.size
      · rw [if_pos last]
        exact iff_of_true (congrArg some last.symm) rfl
      · rw [if_neg last]
        refine iff_of_false (fun e => last (Option.some.inj e).symm) fun e => ?_
        rw [← name?, ← c, new] at e
        cases e
    · rw [if_neg same]
      by_cases last : h = i.names.size
      · rw [if_pos last]
        refine iff_of_false (fun e => ?_) fun e => same (Option.some.inj e)
        exact Nat.lt_irrefl _ (last ▸ lt_of_name? ((c other h).1 e))
      · rw [if_neg last]
        exact c other h

theorem handle?_intern (c : i.Coherent) (name : String) :
    (i.intern name).1.handle? name = some (i.intern name).2 :=
  (c.intern name _ _).2 (c.name?_intern name)

theorem name?_intern_of_lt (c : i.Coherent) (lt : h < i.size) (name : String) :
    (i.intern name).1.name? h = i.name? h := by
  rw [name?_eq, name?_eq, c.toList_intern]
  split
  · rfl
  · exact List.getElem?_append_left lt

theorem name?_kept (c : i.Coherent) (e : i.name? h = some other) (name : String) :
    (i.intern name).1.name? h = some other := by
  rw [c.name?_intern_of_lt (lt_of_name? e), e]

theorem size_intern_le (c : i.Coherent) (name : String) : i.size ≤ (i.intern name).1.size := by
  rw [size_eq, size_eq, c.toList_intern]
  split
  · exact Nat.le_refl _
  · rw [List.length_append]
    exact Nat.le_add_right _ _

end Coherent

end Interner

end Arbiter
