import Arbiter.Proofs.Digraph.Cycles

namespace Arbiter

namespace Digraph

namespace Search

/-- A search goes on from one state, with the roots that are left, and comes to its end at another;
`trace` has the states at which it goes round its loop. -/
inductive Runs (g : Digraph) (firstOnly : Bool) : List Nat → Search → List Search → Search → Prop
  | stop {roots s} (stopped : firstOnly = true ∧ s.cycles ≠ []) : Runs g firstOnly roots s [] s
  | done {s} (idle : s.stack = []) : Runs g firstOnly [] s [] s
  | skip {root roots s trace t} (going : ¬ (firstOnly = true ∧ s.cycles ≠ []))
      (idle : s.stack = []) (seen : s.mark root ≠ .white)
      (rest : Runs g firstOnly roots s trace t) : Runs g firstOnly (root :: roots) s trace t
  | enter {root roots s trace t} (going : ¬ (firstOnly = true ∧ s.cycles ≠ []))
      (idle : s.stack = []) (white : s.mark root = .white)
      (rest : Runs g firstOnly roots (s.enter g root) trace t) :
      Runs g firstOnly (root :: roots) s trace t
  | step {roots s trace t} (going : ¬ (firstOnly = true ∧ s.cycles ≠ [])) (left : s.stack ≠ [])
      (rest : Runs g firstOnly roots (step g s) trace t) : Runs g firstOnly roots s (s :: trace) t

variable {g : Digraph} {firstOnly : Bool} {s t : Search} {n root : Nat} {roots done : List Nat}
  {trace : List Search}

section Existence

theorem Runs.of_run (rest : Runs g firstOnly roots (run g firstOnly n s) trace t) :
    ∃ before, Runs g firstOnly roots s (before ++ trace) t := by
  induction n generalizing s with
  | zero => exact ⟨[], rest⟩
  | succ n ih =>
    rw [run] at rest
    split at rest
    · exact ⟨[], rest⟩
    · obtain ⟨left, going⟩ := not_or.1 (mt finished_iff.2 ‹_›)
      obtain ⟨before, runs⟩ := ih rest
      exact ⟨s :: before, .step going left runs⟩

theorem Searched.runs (h : s.Searched g firstOnly done) (roots : List Nat) :
    ∃ trace, Runs g firstOnly roots s trace (roots.foldl (Search.visit g firstOnly) s) := by
  induction roots generalizing s done with
  | nil =>
    rcases h.ended with stopped | ⟨idle, -⟩
    · exact ⟨[], .stop stopped⟩
    · exact ⟨[], .done idle⟩
  | cons root roots ih =>
    by_cases stopped : firstOnly = true ∧ s.cycles ≠ []
    · rw [List.foldl_fixed' (visit_stopped stopped)]
      exact ⟨[], .stop stopped⟩
    · obtain ⟨idle, -⟩ := h.ended.resolve_left stopped
      obtain ⟨trace, runs⟩ := ih (h.visit root)
      rw [List.foldl_cons]
      by_cases white : s.mark root = .white
      · rw [visit_white stopped white] at runs ⊢
        obtain ⟨before, runs⟩ := runs.of_run
        exact ⟨before ++ trace, .enter stopped idle white runs⟩
      · rw [visit_seen white] at runs ⊢
        exact ⟨trace, .skip stopped idle white runs⟩

theorem exists_runs (g : Digraph) (firstOnly : Bool) (roots : List Nat) :
    ∃ trace, Runs g firstOnly roots (start g) trace
      (roots.foldl (visit g firstOnly) (start g)) :=
  (searched_start g firstOnly).runs roots

end Existence

namespace Runs

theorem kept {P : Search → Prop}
    (enter : ∀ s v, s.Sound g none → s.stack = [] → s.mark v = .white → P s → P (s.enter g v))
    (step : ∀ s, s.Sound g none → s.stack ≠ [] → P s → P (Search.step g s))
    (runs : Runs g firstOnly roots s trace t) (sound : s.Sound g none) (h : P s) :
    (∀ x ∈ trace, x.Sound g none ∧ P x) ∧ t.Sound g none ∧ P t := by
  induction runs with
  | stop _ => exact ⟨nofun, sound, h⟩
  | done _ => exact ⟨nofun, sound, h⟩
  | skip _ _ _ _ ih => exact ih sound h
  | enter _ idle white _ ih =>
    exact ih ((sound.idle idle (some _)).enter white) (enter _ _ sound idle white h)
  | step _ left _ ih =>
    obtain ⟨later, final⟩ := ih sound.step (step _ sound left h)
    exact ⟨List.forall_mem_cons.2 ⟨⟨sound, h⟩, later⟩, final⟩

theorem tasks (runs : Runs g firstOnly roots s trace t) (sound : s.Sound g none) :
    (trace.map task? ++ (t.tasks g).map some).Perm ((s.tasks g).map some) := by
  induction runs with
  | stop _ => exact .refl _
  | done _ => exact .refl _
  | skip _ _ _ _ ih => exact ih sound
  | enter _ idle white _ ih =>
    exact (ih ((sound.idle idle (some _)).enter white)).trans
      ((tasks_enter sound.size white).map some)
  | step _ left _ ih =>
    obtain ⟨task, is, perm⟩ := sound.tasks_step left
    rw [List.map_cons, is]
    exact ((ih sound.step).cons (some task)).trans (perm.map some).symm

end Runs

end Search

end Digraph

end Arbiter
