namespace Arbiter

structure Slot where
  offset : Nat
  deriving DecidableEq, Repr

namespace Slot

def index (s : Slot) : Nat := s.offset + 1

def ofIndex? : Nat → Option Slot
  | 0 => none
  | n + 1 => some ⟨n⟩

@[simp] theorem ofIndex?_zero : ofIndex? 0 = none := rfl

@[simp] theorem ofIndex?_index (s : Slot) : ofIndex? s.index = some s := rfl

theorem ofIndex?_eq_some_iff {n : Nat} {s : Slot} : ofIndex? n = some s ↔ n = s.index := by
  cases n with
  | zero => simp [index]
  | succ n => cases s; simp [ofIndex?, index]

end Slot

end Arbiter
