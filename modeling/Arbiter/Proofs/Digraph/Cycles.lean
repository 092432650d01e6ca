import Arbiter.Proofs.Digraph.Search

namespace Arbiter

universe u

namespace Digraph

variable {g : Digraph} {c : List Nat} {firstOnly : Bool}

theorem IsCycle.ne_nil (h : g.IsCycle c) : c ≠ [] := by
  rintro rfl
  obtain ⟨u, -, last, -⟩ := h.closing
  cases last

theorem reaches_of_chain {β : Type u} {r : β → β → Prop} {xs : List β} {x y : β}
    (chain : xs.IsChain r) (first : xs.head? = some x) (last : xs.getLast? = some y) :
    Relation.ReflTransGen r x y := by
  obtain ⟨rest, rfl⟩ := List.head?_eq_some_iff.1 first
  have ends : (x :: rest).getLast (List.cons_ne_nil x rest) = y :=
    Option.some.inj ((List.getLast?_eq_some_getLast _).symm.trans last)
  exact List.relationReflTransGen_of_exists_isChain_cons rest chain ends

theorem IsCycle.not_acyclic (h : g.IsCycle c) : ¬ g.Acyclic := by
  obtain ⟨u, v, last, first, edge⟩ := h.closing
  exact fun acyclic => acyclic v (.tail' (reaches_of_chain h.chain first last) edge)

namespace Search

variable {s s' : Search} {u v w : Nat} {n : Nat} {roots done : List Nat}

theorem finished_iff :
    s.finished firstOnly = true ↔ s.stack = [] ∨ firstOnly = true ∧ s.cycles ≠ [] := by
  simp [finished]

section Visited

theorem visited_setMark {m : Mark} (h : s.mark v ≠ .white) (colored : m ≠ .white) :
    (s.setMark u m).mark v ≠ .white := by
  rw [mark, setMark, Array.getElem?_setIfInBounds]
  split
  · split
    · exact colored
    · decide
  · exact h

theorem visited_step (h : s.mark v ≠ .white) : (step g s).mark v ≠ .white := by
  cases is : s.stack with
  | nil =>
    rw [step, is]
    exact h
  | cons f below =>
    obtain ⟨u, pending⟩ := f
    cases pending with
    | nil =>
      rw [step, is]
      exact visited_setMark h (by decide)
    | cons w pending =>
      rw [step_try g is]
      split
      · exact visited_setMark h (by decide)
      · exact h
      · exact h

end Visited

theorem Sound.run (h : s.Sound g none) (enough : (s.tasks g).length ≤ n) :
    (run g firstOnly n s).Sound g none ∧ (run g firstOnly n s).finished firstOnly = true ∧
      ∀ v, s.mark v ≠ .white → (run g firstOnly n s).mark v ≠ .white := by
  induction n generalizing s with
  | zero =>
    -- A step would do one thing more, but nothing is left to do.
    refine ⟨h, finished_iff.2 (.inl ?_), fun _ => id⟩
    by_contra left
    obtain ⟨task, -, perm⟩ := h.tasks_step left
    rw [List.length_eq_zero_iff.1 (Nat.le_zero.1 enough)] at perm
    cases perm.nil_eq
  | succ n ih =>
    rw [Search.run]
    split
    · exact ⟨h, ‹_›, fun _ => id⟩
    · have left : s.stack ≠ [] := fun idle => ‹¬ _› (finished_iff.2 (.inl idle))
      obtain ⟨task, -, perm⟩ := h.tasks_step left
      rw [perm.length_eq] at enough
      obtain ⟨sound, finished, visited⟩ := ih h.step (Nat.le_of_succ_le_succ enough)
      exact ⟨sound, finished, fun v seen => visited v (visited_step seen)⟩

section Visit

variable {root : Nat}

theorem visit_stopped (stopped : firstOnly = true ∧ s.cycles ≠ []) (root : Nat) :
    visit g firstOnly s root = s := by
  rw [visit, if_neg]
  simp [stopped]

theorem visit_seen (seen : s.mark root ≠ .white) : visit g firstOnly s root = s := by
  rw [visit, if_neg]
  simp [seen]

theorem visit_white (going : ¬ (firstOnly = true ∧ s.cycles ≠ []))
    (white : s.mark root = .white) :
    visit g firstOnly s root = Search.run g firstOnly (budget g) (s.enter g root) := by
  rw [visit, if_pos]
  simpa [white, imp_iff_not_or] using going

end Visit

structure Searched (g : Digraph) (firstOnly : Bool) (roots : List Nat) (s : Search) : Prop where
  sound : s.Sound g none
  ended : (firstOnly = true ∧ s.cycles ≠ []) ∨ s.stack = [] ∧ ∀ v ∈ roots, s.mark v ≠ .white

theorem Searched.visit (h : s.Searched g firstOnly done) (root : Nat) :
    (visit g firstOnly s root).Searched g firstOnly (root :: done) := by
  by_cases stopped : firstOnly = true ∧ s.cycles ≠ []
  · rw [visit_stopped stopped]
    exact ⟨h.sound, .inl stopped⟩
  · obtain ⟨idle, visited⟩ := h.ended.resolve_left stopped
    by_cases white : s.mark root = .white
    · rw [visit_white stopped white]
      have gray : (s.enter g root).mark root = .gray := by
        rw [mark_enter white, Function.update_self]
      have enough : ((s.enter g root).tasks g).length ≤ budget g :=
        (tasks_enter h.sound.size white).length_eq.trans_le (length_tasks_le g idle)
      obtain ⟨sound, finished, kept⟩ := ((h.sound.idle idle (some root)).enter white).run enough
      refine ⟨sound, (finished_iff.1 finished).symm.imp_right fun idle => ⟨idle, ?_⟩⟩
      refine List.forall_mem_cons.2 ⟨kept root (by rw [gray]; exact nofun), fun v mem => ?_⟩
      exact kept v (visited_setMark (visited v mem) (by decide))
    · rw [visit_seen white]
      exact ⟨h.sound, .inr ⟨idle, List.forall_mem_cons.2 ⟨white, visited⟩⟩⟩

theorem Searched.foldl (h : s.Searched g firstOnly done) (roots : List Nat) :
    (roots.foldl (Search.visit g firstOnly) s).Searched g firstOnly (roots.reverse ++ done) := by
  induction roots generalizing s done with
  | nil => exact h
  | cons root roots ih =>
    rw [List.foldl_cons, List.reverse_cons, List.append_assoc]
    exact ih (h.visit root)

theorem searched_start (g : Digraph) (firstOnly : Bool) : (start g).Searched g firstOnly [] :=
  ⟨sound_start g, .inr ⟨rfl, fun _ => nofun⟩⟩

theorem searched (g : Digraph) (firstOnly : Bool) (roots : List Nat) :
    (roots.foldl (Search.visit g firstOnly) (start g)).Searched g firstOnly roots.reverse := by
  have searched := (searched_start g firstOnly).foldl roots
  rwa [List.append_nil] at searched

theorem Searched.acyclic_of_root (h : s.Searched g firstOnly roots)
    (went : ¬ (firstOnly = true ∧ s.cycles ≠ [])) (mem : v ∈ roots) :
    ¬ Relation.TransGen (s.Open g) v v := by
  intro path
  obtain ⟨idle, visited⟩ := h.ended.resolve_left went
  cases color : s.mark v with
  | white => exact visited v mem color
  | gray =>
    rw [h.sound.gray, idle] at color
    cases color
  | black => exact h.sound.acyclic v color path

theorem Searched.acyclic (h : s.Searched g firstOnly g.vertices.reverse)
    (went : ¬ (firstOnly = true ∧ s.cycles ≠ [])) (v : Nat) :
    ¬ Relation.TransGen (s.Open g) v v := by
  intro path
  obtain ⟨w, edge, -⟩ := Relation.TransGen.head'_iff.1 path
  exact h.acyclic_of_root went (List.mem_reverse.2 (List.mem_range.2 edge.1.lt)) path

end Search

theorem isCycle_of_mem {roots : List Nat} (mem : c ∈ g.cycles firstOnly roots) : g.IsCycle c :=
  (Search.searched g firstOnly roots).sound.found c (List.mem_reverse.1 mem)

theorem not_cyclic_of_root {roots : List Nat} (none : g.cycles firstOnly roots = []) {v : Nat}
    (mem : v ∈ roots) : ¬ Relation.TransGen g.Edge v v := by
  intro path
  rw [cycles, List.reverse_eq_nil_iff] at none
  have searched := Search.searched g firstOnly roots
  generalize roots.foldl (Search.visit g firstOnly) (.start g) = s at none searched
  refine searched.acyclic_of_root (fun stopped => stopped.2 none) (List.mem_reverse.2 mem)
    (path.mono (fun u w edge => ⟨edge, ?_⟩) v v)
  rintro ⟨c, mem, -⟩
  rw [none] at mem
  cases mem

theorem cycles_eq_nil_iff (g : Digraph) (firstOnly : Bool) :
    g.cycles firstOnly g.vertices = [] ↔ g.Acyclic := by
  constructor
  · intro none v path
    obtain ⟨w, edge, -⟩ := Relation.TransGen.head'_iff.1 path
    exact not_cyclic_of_root none (List.mem_range.2 edge.lt) path
  · intro acyclic
    rw [List.eq_nil_iff_forall_not_mem]
    exact fun c mem => (isCycle_of_mem mem).not_acyclic acyclic

theorem firstCycle?_eq_none_iff (g : Digraph) : g.firstCycle? g.vertices = none ↔ g.Acyclic := by
  rw [firstCycle?, List.head?_eq_none_iff, cycles_eq_nil_iff]

theorem isCycle_of_firstCycle? {roots : List Nat} (h : g.firstCycle? roots = some c) :
    g.IsCycle c := isCycle_of_mem (List.mem_of_head? h)

end Digraph

end Arbiter
