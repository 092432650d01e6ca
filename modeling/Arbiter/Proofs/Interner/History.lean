import Arbiter.Proofs.Interner
import Mathlib.Data.List.Induction
import Mathlib.Data.List.NodupEquivFin

namespace Arbiter

section FirstSeen

variable {names : List String} {name other : String}

theorem eraseDups_concat (names : List String) (name : String) : (names ++ [name]).eraseDups =
    if name ∈ names.eraseDups then names.eraseDups else names.eraseDups ++ [name] := by
  rw [List.eraseDups_append]
  simp only [List.mem_eraseDups]
  split
  · simp [List.removeAll, *]
  · simp [List.removeAll, List.eraseDups_cons, *]

theorem eraseDups_append_of_subset {more : List String} (nodup : names.Nodup)
    (sub : more ⊆ names) : (names ++ more).eraseDups = names := by
  induction more using List.reverseRecOn with
  | nil =>
    rw [List.append_nil]
    clear sub
    induction names using List.reverseRecOn with
    | nil => rfl
    | append_singleton names name ih =>
      rw [List.nodup_append_comm, List.singleton_append, List.nodup_cons] at nodup
      rw [eraseDups_concat, ih nodup.2, if_neg nodup.1]
  | append_singleton more name ih =>
    rw [List.append_subset] at sub
    rw [← List.append_assoc, eraseDups_concat, ih sub.1, if_pos (sub.2 List.mem_cons_self)]

theorem exists_before (lt : names.idxOf name < names.idxOf other) :
    ∃ earlier later, names = earlier ++ later ∧ name ∈ earlier ∧ other ∉ earlier := by
  refine ⟨_, _, (List.take_append_drop (names.idxOf other) names).symm, ?_, fun mem => ?_⟩
  · have mem := List.idxOf_lt_length_iff.1 (Nat.lt_of_lt_of_le lt List.idxOf_le_length)
    exact (List.mem_take_iff_idxOf_lt mem).2 lt
  · exact Nat.lt_irrefl _ ((List.mem_take_iff_idxOf_lt (List.mem_of_mem_take mem)).1 mem)

theorem idxOf_eraseDups_lt (lt : names.idxOf name < names.idxOf other) :
    names.eraseDups.idxOf name < names.eraseDups.idxOf other := by
  obtain ⟨earlier, later, rfl, mem, out⟩ := exists_before lt
  rw [← List.mem_eraseDups] at mem out
  rw [List.eraseDups_append, List.idxOf_append_of_mem mem, List.idxOf_append_of_notMem out]
  exact Nat.lt_of_lt_of_le (List.idxOf_lt_length_of_mem mem) (Nat.le_add_right _ _)

theorem idxOf_eraseDups_lt_iff (mem : name ∈ names) :
    names.eraseDups.idxOf name < names.eraseDups.idxOf other ↔
      names.idxOf name < names.idxOf other := by
  refine ⟨fun lt => ?_, idxOf_eraseDups_lt⟩
  rcases Nat.lt_trichotomy (names.idxOf name) (names.idxOf other) with before | same | after
  · exact before
  · rw [(List.idxOf_inj mem).1 same] at lt
    exact absurd lt (Nat.lt_irrefl _)
  · exact absurd lt (Nat.lt_asymm (idxOf_eraseDups_lt after))

end FirstSeen

namespace Interner

def internAll (i : Interner) : List String → Interner × List Nat
  | [] => (i, [])
  | name :: names =>
    let (i, h) := i.intern name
    let (i, hs) := i.internAll names
    (i, h :: hs)

def ofList (names : List String) : Interner := (internAll ∅ names).1

/-- Handles and names that stand for each other in `i` do so in `j`. -/
structure Keeps (i j : Interner) : Prop where
  handle : ∀ name h, i.handle? name = some h → j.handle? name = some h
  name : ∀ h name, i.name? h = some name → j.name? h = some name

variable {i j k : Interner} {name : String}

section Run

theorem internAll_append (i : Interner) (names more : List String) :
    (i.internAll (names ++ more)).1 = ((i.internAll names).1.internAll more).1 := by
  induction names generalizing i with
  | nil => rfl
  | cons name names ih => exact ih (i.intern name).1

theorem ofList_append (names more : List String) :
    ofList (names ++ more) = ((ofList names).internAll more).1 := internAll_append ∅ names more

theorem ofList_concat (names : List String) (name : String) :
    ofList (names ++ [name]) = ((ofList names).intern name).1 := ofList_append names [name]

theorem Keeps.refl (i : Interner) : i.Keeps i := ⟨fun _ _ => id, fun _ _ => id⟩

theorem Keeps.trans (first : i.Keeps j) (second : j.Keeps k) : i.Keeps k where
  handle name h known := second.handle name h (first.handle name h known)
  name h name known := second.name h name (first.name h name known)

namespace Coherent

theorem keeps_intern (c : i.Coherent) (name : String) : i.Keeps (i.intern name).1 where
  handle other h known := (c.intern name other h).2 (c.name?_kept ((c other h).1 known) name)
  name _ _ known := c.name?_kept known name

protected theorem internAll (c : i.Coherent) (names : List String) :
    (i.internAll names).1.Coherent := by
  induction names generalizing i with
  | nil => exact c
  | cons name names ih => exact ih (c.intern name)

theorem keeps_internAll (c : i.Coherent) (names : List String) :
    i.Keeps (i.internAll names).1 := by
  induction names generalizing i with
  | nil => exact .refl i
  | cons name names ih => exact (c.keeps_intern name).trans (ih (c.intern name))

theorem handles_internAll (c : i.Coherent) (names : List String) :
    (i.internAll names).2.map some = names.map (i.internAll names).1.handle? := by
  induction names generalizing i with
  | nil => rfl
  | cons name names ih =>
    have kept := ((c.intern name).keeps_internAll names).handle name _ (c.handle?_intern name)
    exact congrArg₂ List.cons kept.symm (ih (c.intern name))

end Coherent

theorem coherent_ofList (names : List String) : (ofList names).Coherent :=
  coherent_empty.internAll names

theorem toList_ofList (names : List String) : (ofList names).toList = names.eraseDups := by
  induction names using List.reverseRecOn with
  | nil => rfl
  | append_singleton names name ih =>
    rw [ofList_concat, (coherent_ofList names).toList_intern, ih, eraseDups_concat]

end Run

section Numbers

structure Numbers (names : List String) (i : Interner) : Prop where
  inverse : ∀ name h, i.handle? name = some h ↔ i.name? h = some name
  dense : ∃ e : {name // name ∈ names} ≃ Fin i.size,
    ∀ name h, i.handle? name = some h ↔ ∃ mem, (e ⟨name, mem⟩ : Nat) = h
  toList : i.toList = names.eraseDups
  before_iff : ∀ name other h k, i.handle? name = some h → i.handle? other = some k →
    (h < k ↔ names.idxOf name < names.idxOf other)
  known : ∀ name ∈ names, ∃ h, i.handle? name = some h ∧ i.intern name = (i, h)
  new : ∀ name ∉ names, i.handle? name = none ∧ (i.intern name).2 = i.size

theorem Coherent.dense {names : List String} (c : i.Coherent)
    (mem_iff : ∀ name, name ∈ names ↔ name ∈ i.toList) :
    ∃ e : {name // name ∈ names} ≃ Fin i.size,
      ∀ name h, i.handle? name = some h ↔ ∃ mem, (e ⟨name, mem⟩ : Nat) = h := by
  refine ⟨(Equiv.subtypeEquivRight mem_iff).trans (c.nodup.getEquiv i.toList).symm, ?_⟩
  intro name h
  rw [c.handle?_iff, ← mem_iff]
  exact exists_prop.symm

theorem numbers_ofList (names : List String) : (ofList names).Numbers names := by
  have c := coherent_ofList names
  have toList := toList_ofList names
  have mem_iff : ∀ name, name ∈ names ↔ name ∈ (ofList names).toList := by
    intro name
    rw [toList, List.mem_eraseDups]
  exact {
    inverse := c
    dense := c.dense mem_iff
    toList := toList
    before_iff name other h k known known' := by
      obtain ⟨mem, rfl⟩ := c.handle?_iff.1 known
      obtain ⟨-, rfl⟩ := c.handle?_iff.1 known'
      rw [toList]
      exact idxOf_eraseDups_lt_iff ((mem_iff name).2 mem)
    known name mem := by
      have handle := c.handle?_iff.2 ⟨(mem_iff name).1 mem, rfl⟩
      exact ⟨_, handle, intern_of_known handle⟩
    new name out := by
      have none := c.handle?_eq_none.2 (mt (mem_iff name).2 out)
      exact ⟨none, by rw [intern_of_new none]⟩
  }

/-- Names that are interned one after the other are numbered without gaps in the order in which they
first came. Each call hands out the number its name has in the end, and whatever is interned later
leaves the numbers as they are. -/
theorem numbered_run (names : List String) :
    (ofList names).Numbers names ∧
      (internAll ∅ names).2.map some = names.map (ofList names).handle? ∧
      ∀ more, (ofList names).Keeps (ofList (names ++ more)) := by
  refine ⟨numbers_ofList names, coherent_empty.handles_internAll names, fun more => ?_⟩
  rw [ofList_append]
  exact (coherent_ofList names).keeps_internAll more

example : (internAll ∅ ["z", "a", "m", "a", "z"]).2 = [0, 1, 2, 1, 0] ∧
    (ofList ["z", "a", "m", "a", "z"]).toList = ["z", "a", "m"] := by decide

end Numbers

end Interner

end Arbiter
