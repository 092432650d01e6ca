import Mathlib.Data.List.Basic

namespace Arbiter

universe u

theorem append_cons_inj {β : Type u} [DecidableEq β] {x : β} {xs ys xs' ys' : List β}
    (h : xs ++ x :: ys = xs' ++ x :: ys') (count : xs.count x = xs'.count x) :
    xs = xs' ∧ ys = ys' := by
  induction xs generalizing xs' with
  | nil =>
    cases xs' with
    | nil => exact ⟨rfl, List.tail_eq_of_cons_eq h⟩
    | cons x' xs' =>
      obtain rfl := List.head_eq_of_cons_eq h
      rw [List.count_cons_self] at count
      cases count
  | cons w xs ih =>
    cases xs' with
    | nil =>
      obtain rfl := List.head_eq_of_cons_eq h
      rw [List.count_cons_self] at count
      cases count
    | cons x' xs' =>
      obtain ⟨rfl, tails⟩ := List.cons.inj h
      rw [List.count_cons, List.count_cons, Nat.add_right_cancel_iff] at count
      obtain ⟨rfl, rfl⟩ := ih tails count
      exact ⟨rfl, rfl⟩

theorem toDigits_append_inj {m n : Nat} {c : Char} {rest rest' : List Char}
    (other : c.isDigit = false)
    (h : Nat.toDigits 10 m ++ c :: rest = Nat.toDigits 10 n ++ c :: rest') :
    m = n ∧ rest = rest' := by
  have absent (k : Nat) : (Nat.toDigits 10 k).count c = 0 := by
    refine List.count_eq_zero.2 fun mem => ?_
    rw [Nat.isDigit_of_mem_toDigits (by decide) (by decide) mem] at other
    cases other
  obtain ⟨digits, rests⟩ := append_cons_inj h ((absent m).trans (absent n).symm)
  have read := congrArg (Nat.ofDigitChars 10 · 0) digits
  simp only [Nat.ofDigitChars_ten_toDigits] at read
  exact ⟨read, rests⟩

end Arbiter
