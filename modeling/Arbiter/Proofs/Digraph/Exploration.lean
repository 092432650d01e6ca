import Arbiter.Proofs.Digraph.Closings
import Arbiter.Proofs.Digraph.Growth

namespace Arbiter

namespace Digraph

theorem simple_grow (gs : List Growth) : (grow gs).Simple := by
  induction gs using List.reverseRecOn with
  | nil => exact simple_empty
  | append_singleton gs x ih =>
    rw [grow_append]
    cases x with
    | mention name => exact ih.mention name
    | join source target => exact ih.addEdge (coherent_grow gs) source target

namespace Search

variable {g : Digraph} {firstOnly : Bool} {s t : Search} {v w : Nat} {above : Option Nat}
  {frames : List Frame} {roots : List Nat} {trace : List Search}

section Met

def Met (s : Search) : Prop := ∀ c ∈ s.cycles, ∀ v ∈ c, s.mark v ≠ .white

theorem Met.enter (h : s.Met) : (s.enter g w).Met :=
  fun c mem v on => visited_setMark (h c mem v on) (by decide)

theorem Met.step (h : s.Met) (sound : s.Sound g none) : (Search.step g s).Met := by
  intro c mem v on
  refine visited_step ?_
  rcases cycles_step g s with same | ⟨w, found⟩
  · exact h c (same ▸ mem) v on
  · rw [found] at mem
    rcases List.mem_cons.1 mem with rfl | mem
    · have gray := (sound.gray v).2 (List.mem_reverse.1 ((List.dropWhile_sublist _).mem on))
      rw [gray]
      exact nofun
    · exact h c mem v on

theorem Met.of_closes (h : s.Met) (closes : s.Closes v w) : s.mark w ≠ .white := by
  obtain ⟨c, mem, -, first⟩ := closes
  exact h c mem w (List.mem_of_head? first)

end Met

section Colors

structure Colored (g : Digraph) (s : Search) : Prop where
  gray : ∀ v, s.mark v = .gray ↔ v ∈ s.path
  nodup : s.path.Nodup
  chain : s.path.IsChain g.Edge
  passed : ∀ f ∈ s.stack, ∃ passed, g.successors f.vertex = passed ++ f.pending ∧
    ∀ w ∈ passed, s.mark w ≠ .white
  settled : ∀ v w, s.mark v = .black → g.Edge v w → s.mark w = .black ∨ s.mark w = .gray
  inside : ∀ v w, g.Edge v w → v < s.marks.size ∧ w < s.marks.size
  closes : ∀ v w, s.task? = some (.examine v w) → s.mark w = .gray →
    ∃ i, s.path.findIdx? (· == w) = some i ∧ (step g s).cycles = s.path.drop i :: s.cycles

theorem Tried.passed (h : s.Tried g above frames) (met : s.Met)
    (up : ∀ w ∈ above, s.mark w ≠ .white) (gray : ∀ f ∈ frames, s.mark f.vertex = .gray) :
    ∀ f ∈ frames, ∃ passed, g.successors f.vertex = passed ++ f.pending ∧
      ∀ w ∈ passed, s.mark w ≠ .white := by
  induction frames generalizing above with
  | nil => exact nofun
  | cons f below ih =>
    obtain ⟨-, ⟨passed, all, leads⟩, rest⟩ := h
    rw [List.forall_mem_cons] at gray ⊢
    refine ⟨⟨passed, all, fun w mem => ?_⟩, ih rest ?_ gray.2⟩
    · rcases leads w mem with black | is | closes
      · rw [black]
        exact nofun
      · exact up w is
      · exact met.of_closes closes
    · rintro w ⟨⟩
      rw [gray.1]
      exact nofun

theorem stack_of_examine (h : s.task? = some (.examine v w)) :
    ∃ pending below, s.stack = ⟨v, w :: pending⟩ :: below := by
  cases is : s.stack with
  | nil =>
    rw [task?, is] at h
    cases h
  | cons f below =>
    obtain ⟨u, pending⟩ := f
    rw [task?, is] at h
    cases pending with
    | nil => cases h
    | cons x pending =>
      cases h
      exact ⟨pending, below, rfl⟩

theorem Sound.colored (h : s.Sound g none) (met : s.Met) (c : g.Coherent) : s.Colored g := by
  have gray (v : Nat) : s.mark v = .gray ↔ v ∈ s.path := (h.gray v).trans List.mem_reverse.symm
  refine ⟨gray, List.nodup_reverse.2 h.nodup, List.isChain_reverse.2 h.tried.chain,
    h.tried.passed met nofun fun f mem => ?_, fun v w black edge => ?_, fun v w edge => ?_,
    fun v w task color => ?_⟩
  · exact (h.gray f.vertex).2 (List.mem_map_of_mem mem)
  · by_cases closes : s.Closes v w
    · have reached := met.of_closes closes
      cases color : s.mark w with
      | white => exact absurd color reached
      | gray => exact .inr rfl
      | black => exact .inl rfl
    · exact .inl (h.settled v w black ⟨edge, closes⟩)
  · rw [h.size]
    exact ⟨edge.lt, c.closed v w edge⟩
  · obtain ⟨pending, below, is⟩ := stack_of_examine task
    refine ⟨_, List.findIdx?_eq_some_of_exists ⟨w, (gray w).1 color, beq_self_eq_true w⟩, ?_⟩
    rw [step_try g is, color]
    dsimp only
    rw [List.dropWhile_eq_drop_findIdx_not]
    simp only [bne, Bool.not_not]

end Colors

section Count

theorem tasks_start (g : Digraph) : (start g).tasks g =
    g.vertices.flatMap fun v => (Frame.mk v (g.successors v)).tasks := by
  have white : g.vertices.filter ((start g).mark · = .white) = g.vertices := by
    refine List.filter_eq_self.2 fun v mem => ?_
    rw [mark, start, Array.getElem?_replicate, if_pos (List.mem_range.1 mem)]
    rfl
  rw [tasks, white]
  rfl

def visited (g : Digraph) (s : Search) : List Nat := g.vertices.filter (s.mark · ≠ .white)

theorem Runs.tasks_visited (runs : Runs g firstOnly roots (start g) trace t) :
    (trace.map task? ++ (t.stack.flatMap Frame.tasks).map some).Perm
      (((t.visited g).flatMap fun v => (Frame.mk v (g.successors v)).tasks).map some) := by
  have all := runs.tasks (sound_start g)
  -- What the vertices still white will have to do is on both sides, and cancels.
  have parts : (t.visited g ++ g.vertices.filter (t.mark · = .white)).Perm g.vertices := by
    refine List.perm_append_comm.trans (.trans (.of_eq ?_)
      (List.filter_append_perm (t.mark · = .white) g.vertices))
    simp only [visited, ne_eq, decide_not]
  rw [tasks_start, Search.tasks, List.map_append, ← List.append_assoc] at all
  have split := all.trans ((parts.flatMap_right _).map some).symm
  rw [List.flatMap_append, List.map_append] at split
  exact (List.perm_append_right_iff _).1 split

theorem nodup_tasks_visited (simple : g.Simple) (s : Search) :
    ((s.visited g).flatMap fun v => (Frame.mk v (g.successors v)).tasks).Nodup := by
  refine List.nodup_flatMap.2 ⟨fun v _ => Frame.nodup_tasks (simple v), ?_⟩
  refine (List.nodup_range.filter _).imp fun {u v} other task mem mem' => ?_
  rcases Frame.mem_tasks.1 mem with rfl | ⟨w, -, rfl⟩
  · rcases Frame.mem_tasks.1 mem' with same | ⟨x, -, same⟩
    · cases same
      exact other rfl
    · cases same
  · rcases Frame.mem_tasks.1 mem' with same | ⟨x, -, same⟩
    · cases same
    · cases same
      exact other rfl

theorem Runs.length_le (runs : Runs g firstOnly roots (start g) trace t) :
    trace.length ≤ (t.visited g).length + g.edgeCount := by
  have length := runs.tasks_visited.length_eq
  have edges : ((t.visited g).flatMap g.successors).length ≤ g.edgeCount := by
    rw [edgeCount_eq]
    exact (List.filter_sublist.flatMap _).length_le
  rw [List.length_append, List.length_map, List.length_map, List.length_map, length_tasks] at length
  omega

theorem Runs.examines_once (runs : Runs g firstOnly roots (start g) trace t) (simple : g.Simple)
    (idle : t.stack = []) (reached : t.mark v ≠ .white) (edge : g.Edge v w) :
    trace.countP (·.task? == some (.examine v w)) = 1 := by
  have done := runs.tasks_visited
  rw [idle, List.flatMap_nil, List.map_nil, List.append_nil] at done
  have mem : Task.examine v w ∈
      (t.visited g).flatMap fun v => (Frame.mk v (g.successors v)).tasks := by
    refine List.mem_flatMap.2 ⟨v, ?_, Frame.mem_tasks.2 (.inr ⟨w, edge, rfl⟩)⟩
    exact List.mem_filter.2 ⟨List.mem_range.2 edge.lt, decide_eq_true reached⟩
  calc trace.countP (·.task? == some (.examine v w))
      = (trace.map task?).count (some (.examine v w)) := by
        rw [List.count, List.countP_map]
        rfl
    _ = ((t.visited g).flatMap fun v => (Frame.mk v (g.successors v)).tasks).count
          (.examine v w) := by
        rw [done.count_eq, List.count_map_of_injective _ some (Option.some_injective _)]
    _ = 1 := List.count_eq_one_of_mem (nodup_tasks_visited simple t) mem

end Count

end Search

/-- A search comes to its end: there are no more iterations than vertices reached and edges. At each
the gray vertices are those on the stack, which is a path, and nothing behind a cursor is white, so
that a gray successor is always found on the stack. A search that does not stop at a cycle tries
every edge out of a vertex that it reaches, and each once. -/
theorem search_iterations (gs : List Growth) (firstOnly : Bool) (roots : List Nat) :
    let g := grow gs
    let final := roots.foldl (Search.visit g firstOnly) (.start g)
    ∃ trace, Search.Runs g firstOnly roots (.start g) trace final ∧
      (∀ s ∈ trace, s.Colored g) ∧
      trace.length ≤ (final.visited g).length + g.edgeCount ∧
      (firstOnly = false → ∀ v w, final.mark v ≠ .white → g.Edge v w →
        trace.countP (·.task? == some (.examine v w)) = 1) := by
  intro g final
  obtain ⟨trace, runs⟩ := Search.exists_runs g firstOnly roots
  have kept := runs.kept (P := Search.Met) (fun s v _ _ _ met => met.enter)
    (fun s sound _ met => met.step sound) (Search.sound_start g) (fun _ => nofun)
  refine ⟨trace, runs, fun s mem => ?_, runs.length_le, fun full v w reached edge => ?_⟩
  · obtain ⟨sound, met⟩ := kept.1 s mem
    exact sound.colored met (coherent_grow gs)
  · have idle := ((Search.searched g firstOnly roots).ended.resolve_left
      fun stopped => Bool.false_ne_true (full.symm.trans stopped.1)).1
    exact runs.examines_once (simple_grow gs) idle reached edge

end Digraph

end Arbiter
