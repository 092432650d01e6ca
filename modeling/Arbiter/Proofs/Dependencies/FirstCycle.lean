import Arbiter.Dependencies
import Arbiter.Proofs.Digraph.Cycles

namespace Arbiter

universe u

namespace Digraph

variable {g : Digraph} {firstOnly : Bool}

namespace Search

variable {s first all : Search} {n : Nat}

inductive Leads (first all : Search) : Prop
  | together (same : first = all) (none : first.cycles = [])
  | stopped (c : List Nat) (found : first.cycles = [c]) (kept : [c] <:+ all.cycles)

section Found

theorem suffix_step (g : Digraph) (s : Search) : s.cycles <:+ (step g s).cycles := by
  rcases cycles_step g s with same | ⟨w, found⟩
  · exact same ▸ List.suffix_rfl
  · exact found ▸ List.suffix_cons _ s.cycles

theorem suffix_run (g : Digraph) (firstOnly : Bool) (n : Nat) (s : Search) :
    s.cycles <:+ (run g firstOnly n s).cycles := by
  induction n generalizing s with
  | zero => exact List.suffix_rfl
  | succ n ih =>
    rw [run]
    split
    · exact List.suffix_rfl
    · exact (suffix_step g s).trans (ih (step g s))

theorem suffix_visit (g : Digraph) (firstOnly : Bool) (s : Search) (root : Nat) :
    s.cycles <:+ (visit g firstOnly s root).cycles := by
  rw [visit]
  split
  · exact suffix_run g firstOnly (budget g) (s.enter g root)
  · exact List.suffix_rfl

end Found

theorem run_finished (ended : s.finished firstOnly = true) : run g firstOnly n s = s := by
  cases n with
  | zero => rfl
  | succ n => rw [run, if_pos ended]

theorem leads_run (none : s.cycles = []) (n : Nat) :
    Leads (run g true n s) (run g false n s) := by
  induction n generalizing s with
  | zero => exact .together rfl none
  | succ n ih =>
    have same : s.finished true = s.finished false := by simp [finished, none]
    rw [run, run, same]
    split
    · exact .together rfl none
    · rcases cycles_step g s with kept | ⟨w, found⟩
      · exact ih (kept.trans none)
      · rw [none] at found
        have ended : (step g s).finished true = true :=
          finished_iff.2 (.inr ⟨rfl, by rw [found]; exact List.cons_ne_nil _ []⟩)
        rw [run_finished ended]
        exact .stopped _ found (found ▸ suffix_run g false n (step g s))

namespace Leads

theorem visit (h : Leads first all) (root : Nat) :
    Leads (Search.visit g true first root) (Search.visit g false all root) := by
  cases h with
  | together same none =>
    subst same
    have going : (!(true && !first.cycles.isEmpty)) = true := by rw [none]; rfl
    have going' : (!(false && !first.cycles.isEmpty)) = true := rfl
    rw [Search.visit, Search.visit, going, going']
    split
    · exact leads_run (s := first.enter g root) none (budget g)
    · exact .together rfl none
  | stopped c found kept =>
    have ended : Search.visit g true first root = first := by
      rw [Search.visit, if_neg (by simp [found])]
    rw [ended]
    exact .stopped c found (kept.trans (suffix_visit g false all root))

theorem foldl (h : Leads first all) (roots : List Nat) :
    Leads (roots.foldl (Search.visit g true) first) (roots.foldl (Search.visit g false) all) := by
  induction roots generalizing first all with
  | nil => exact h
  | cons root roots ih => exact ih (h.visit root)

theorem take_one (h : Leads first all) : first.cycles.reverse = all.cycles.reverse.take 1 := by
  cases h with
  | together same none =>
    subst same
    rw [none]
    rfl
  | stopped c found kept =>
    obtain ⟨later, is⟩ := kept
    rw [found, ← is, List.reverse_append]
    rfl

end Leads

theorem finished_foldl (g : Digraph) (firstOnly : Bool) (roots : List Nat) :
    (roots.foldl (Search.visit g firstOnly) (.start g)).finished firstOnly = true := by
  rw [finished_iff]
  exact (searched g firstOnly roots).ended.symm.imp_left And.left

end Search

theorem cycles_true (g : Digraph) (roots : List Nat) :
    g.cycles true roots = (g.cycles false roots).take 1 := by
  have together : Search.Leads (.start g) (.start g) := .together rfl rfl
  exact (together.foldl roots).take_one

example : let g := ((empty.addEdge "a" "b").addEdge "b" "a").addEdge "b" "b"
    g.cycles true [7, 1, 1, 0] = [[1, 0]] ∧ g.cycles false [7, 1, 1, 0] = [[1, 0], [1]] := by
  decide

theorem firstCycle?_eq (g : Digraph) (roots : List Nat) :
    g.firstCycle? roots = (g.cycles false roots).head? := by
  rw [firstCycle?, cycles_true, List.head?_take, if_neg Nat.one_ne_zero]

end Digraph

namespace Dependencies

variable {α : Type u}

theorem firstCycle_eq (d : Dependencies α) : d.firstCycle = d.allCycles.head?.getD [] := by
  rw [firstCycle, Digraph.firstCycle?_eq, allCycles, List.head?_map]
  cases (d.graph.cycles false d.graph.vertices).head? with
  | none => rfl
  | some c => rfl

theorem ne_nil_of_mem_allCycles {d : Dependencies α} {c : List (Node α)} (mem : c ∈ d.allCycles) :
    c ≠ [] := by
  obtain ⟨vs, found, rfl⟩ := List.mem_map.1 mem
  exact mt List.map_eq_nil_iff.1 (Digraph.isCycle_of_mem found).ne_nil

theorem firstCycle_nil_iff (d : Dependencies α) : d.firstCycle = [] ↔ d.allCycles = [] := by
  rw [firstCycle_eq]
  cases found : d.allCycles with
  | nil => exact iff_of_true rfl rfl
  | cons c more =>
    have mem : c ∈ d.allCycles := found ▸ List.mem_cons_self
    exact iff_of_false (ne_nil_of_mem_allCycles mem) (List.cons_ne_nil c more)

/-- The first cycle is the first of all cycles, and missing only where there are none; from any
roots, a search that stops finds the first of what one finds that goes on, or nothing either. Both
come to their end. -/
theorem firstCycle_leads (d : Dependencies α) :
    d.firstCycle = d.allCycles.head?.getD [] ∧
    (d.firstCycle = [] ↔ d.allCycles = []) ∧
    ∀ (g : Digraph) (roots : List Nat),
      g.cycles true roots = (g.cycles false roots).take 1 ∧ ∀ firstOnly : Bool,
        (roots.foldl (Digraph.Search.visit g firstOnly) (.start g)).finished firstOnly = true := by
  refine ⟨d.firstCycle_eq, d.firstCycle_nil_iff, fun g roots => ⟨g.cycles_true roots, ?_⟩⟩
  intro firstOnly
  exact Digraph.Search.finished_foldl g firstOnly roots

end Dependencies

end Arbiter
