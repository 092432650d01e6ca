import Arbiter.Slot

namespace Arbiter

universe u

structure Arena (α : Type u) where
  cells : Array α
  deriving Repr

namespace Arena

variable {α : Type u}

def ofFn (capacity : Nat) (f : Slot → α) : Arena α :=
  ⟨((List.range capacity).map fun i => f ⟨i⟩).toArray⟩

def capacity (a : Arena α) : Nat := a.cells.size

instance : GetElem? (Arena α) Slot α fun a s => s.offset < a.cells.size where
  getElem a s _ := a.cells[s.offset]
  getElem? a s := a.cells[s.offset]?

instance : LawfulGetElem (Arena α) Slot α fun a s => s.offset < a.cells.size where
  getElem?_def a s _ := getElem?_def a.cells s.offset
  getElem!_def _ _ := rfl

def contains (a : Arena α) (s : Slot) : Bool := s.offset < a.capacity

def set (a : Arena α) (s : Slot) (x : α) : Arena α := ⟨a.cells.setIfInBounds s.offset x⟩

def modify (a : Arena α) (s : Slot) (f : α → α) : Arena α := ⟨a.cells.modify s.offset f⟩

def slots (a : Arena α) : List Slot := (List.range a.capacity).map .mk

def items (a : Arena α) : List (Slot × α) := a.slots.zip a.cells.toList

theorem getElem?_eq (a : Arena α) (s : Slot) : a[s]? = a.cells[s.offset]? := rfl

@[simp] theorem capacity_ofFn (n : Nat) (f : Slot → α) : (ofFn n f).capacity = n := by
  simp [capacity, ofFn]

@[simp] theorem capacity_set (a : Arena α) (s : Slot) (x : α) :
    (a.set s x).capacity = a.capacity := by simp [capacity, set]

@[simp] theorem capacity_modify (a : Arena α) (s : Slot) (f : α → α) :
    (a.modify s f).capacity = a.capacity := by simp [capacity, modify]

@[grind =] theorem getElem?_ofFn (n : Nat) (f : Slot → α) (s : Slot) :
    (ofFn n f)[s]? = if s.offset < n then some (f s) else none := by
  rw [getElem?_eq]
  by_cases h : s.offset < n <;> simp [ofFn, h]

@[grind =] theorem getElem?_set (a : Arena α) (s t : Slot) (x : α) :
    (a.set s x)[t]? = if s = t then a[t]?.map fun _ => x else a[t]? := by
  obtain ⟨i⟩ := s
  obtain ⟨j⟩ := t
  simp only [getElem?_eq, set, Array.getElem?_setIfInBounds, Slot.mk.injEq]
  grind

@[grind =] theorem getElem?_modify (a : Arena α) (s t : Slot) (f : α → α) :
    (a.modify s f)[t]? = if s = t then a[t]?.map f else a[t]? := by
  obtain ⟨i⟩ := s
  obtain ⟨j⟩ := t
  simp only [getElem?_eq, modify, Array.getElem?_modify, Slot.mk.injEq]

theorem getElem?_eq_none_iff {a : Arena α} {s : Slot} : a[s]? = none ↔ a.capacity ≤ s.offset := by
  simp [getElem?_eq, capacity]

theorem some_of_lt {a : Arena α} {s : Slot} (hs : s.offset < a.capacity) : ∃ x, a[s]? = some x := by
  cases at_s : a[s]? with
  | none => exact absurd (getElem?_eq_none_iff.1 at_s) (Nat.not_le_of_lt hs)
  | some x => exact ⟨x, rfl⟩

theorem lt_of_some {a : Arena α} {s : Slot} {x : α} (at_s : a[s]? = some x) :
    s.offset < a.capacity := by
  apply Nat.lt_of_not_le
  intro out
  rw [getElem?_eq_none_iff.2 out] at at_s
  cases at_s

end Arena

end Arbiter
