import Arbiter.Digraph.Cycles
import Arbiter.Proofs.Digraph.Linear
import Mathlib.Data.List.Chain
import Mathlib.Data.List.Flatten

/-!
What a depth-first search keeps. The stack is a path; an edge that a frame has tried leads to a
black vertex or to the frame above, or it has closed a cycle. So the edges that close none lead
from black vertices to black vertices only, and around no cycle of them.
-/

namespace Arbiter

namespace Digraph

/-- A path without repetition whose end leads back to its beginning. -/
structure IsCycle (g : Digraph) (c : List Nat) : Prop where
  nodup : c.Nodup
  chain : c.IsChain g.Edge
  closing : ∃ u v, c.getLast? = some u ∧ c.head? = some v ∧ g.Edge u v

inductive Task where
  | examine (source target : Nat)
  | leave (vertex : Nat)
  deriving DecidableEq

def Frame.tasks (f : Frame) : List Task := f.pending.map (.examine f.vertex) ++ [.leave f.vertex]

namespace Frame

@[simp] theorem length_tasks (f : Frame) : f.tasks.length = f.pending.length + 1 := by
  simp [tasks]

theorem mem_tasks {f : Frame} {task : Task} : task ∈ f.tasks ↔
    task = .leave f.vertex ∨ ∃ w ∈ f.pending, task = .examine f.vertex w := by
  simp [tasks, or_comm, eq_comm]

theorem nodup_tasks {f : Frame} (h : f.pending.Nodup) : f.tasks.Nodup := by
  have tried : (f.pending.map (Task.examine f.vertex)).Nodup := h.map fun _ _ => by simp
  simp [tasks, List.nodup_append, tried]

end Frame

namespace Search

def Closes (s : Search) (u v : Nat) : Prop :=
  ∃ c ∈ s.cycles, c.getLast? = some u ∧ c.head? = some v

def Open (g : Digraph) (s : Search) (u v : Nat) : Prop := g.Edge u v ∧ ¬ s.Closes u v

/-- The frames of a path to `above`, and where their tried edges lead. -/
def Tried (g : Digraph) (s : Search) : Option Nat → List Frame → Prop
  | _, [] => True
  | above, f :: below =>
    (∀ w ∈ above, g.Edge f.vertex w) ∧
    (∃ tried, g.successors f.vertex = tried ++ f.pending ∧
      ∀ w ∈ tried, s.mark w = .black ∨ w ∈ above ∨ s.Closes f.vertex w) ∧
    Tried g s (some f.vertex) below

/-- A search under way; `above` is the vertex that is about to be entered, if any. -/
structure Sound (g : Digraph) (above : Option Nat) (s : Search) : Prop where
  size : s.marks.size = g.size
  gray : ∀ v, s.mark v = .gray ↔ v ∈ s.stack.map Frame.vertex
  nodup : (s.stack.map Frame.vertex).Nodup
  tried : s.Tried g above s.stack
  settled : ∀ v w, s.mark v = .black → s.Open g v w → s.mark w = .black
  acyclic : ∀ v, s.mark v = .black → ¬ Relation.TransGen (s.Open g) v v
  found : ∀ c ∈ s.cycles, g.IsCycle c

variable {g : Digraph} {s s' : Search} {u v w : Nat} {above above' : Option Nat}
  {pending : List Nat} {below frames : List Frame}

section Marks

theorem mark_setMark (lt : v < s.marks.size) (m : Mark) :
    (s.setMark v m).mark = Function.update s.mark v m := by
  funext w
  rw [mark, setMark, Array.getElem?_setIfInBounds]
  by_cases is : v = w
  · subst w
    rw [if_pos rfl, if_pos lt, Function.update_self]
    rfl
  · rw [if_neg is, Function.update_of_ne (Ne.symm is)]
    rfl

theorem lt_of_mark {m : Mark} (h : s.mark v = m) (ne : m ≠ .black) : v < s.marks.size := by
  by_contra out
  rw [mark, Array.getElem?_eq_none (Nat.le_of_not_lt out)] at h
  exact ne h.symm

theorem mark_enter (white : s.mark w = .white) :
    (s.enter g w).mark = Function.update s.mark w .gray :=
  mark_setMark (lt_of_mark white (by decide)) .gray

end Marks

section Tried

theorem Closes.mono (h : s.Closes u v) (cycles : s.cycles ⊆ s'.cycles) : s'.Closes u v := by
  obtain ⟨c, mem, ends⟩ := h
  exact ⟨c, cycles mem, ends⟩

theorem Tried.mono (h : s.Tried g above frames) (cycles : s.cycles ⊆ s'.cycles)
    (black : ∀ w, s.mark w = .black → s'.mark w = .black)
    (top : ∀ w ∈ above, s'.mark w = .black ∨ w ∈ above') (sub : ∀ w ∈ above', w ∈ above) :
    s'.Tried g above' frames := by
  induction frames generalizing above above' with
  | nil => trivial
  | cons f below ih =>
    obtain ⟨edge, ⟨tried, is, leads⟩, rest⟩ := h
    refine ⟨fun w mem => edge w (sub w mem), ⟨tried, is, fun w mem => ?_⟩,
      ih rest (fun w => .inr) fun _ => id⟩
    rcases leads w mem with settled | up | closes
    · exact .inl (black w settled)
    · exact (top w up).imp_right .inl
    · exact .inr (.inr (closes.mono cycles))

theorem Tried.chain (h : s.Tried g above frames) :
    (frames.map Frame.vertex).IsChain fun a b => g.Edge b a := by
  induction frames generalizing above with
  | nil => exact .nil
  | cons f below ih =>
    obtain ⟨-, -, rest⟩ := h
    refine (ih rest).cons ?_
    cases below with
    | nil => exact nofun
    | cons f' below =>
      rintro w ⟨⟩
      exact rest.1 f.vertex rfl

end Tried

section Step

theorem Sound.black_of_path (h : s.Sound g above) (path : Relation.ReflTransGen (s.Open g) v w)
    (black : s.mark v = .black) : s.mark w = .black := by
  induction path with
  | refl => exact black
  | tail _ edge ih => exact h.settled _ _ ih edge

theorem sound_start (g : Digraph) : (start g).Sound g none := by
  have black : ∀ v, (start g).mark v = .black → ¬ v < g.size := by
    intro v black lt
    rw [mark, start, Array.getElem?_replicate, if_pos lt] at black
    cases black
  refine ⟨Array.size_replicate, fun v => iff_of_false ?_ List.not_mem_nil, List.nodup_nil, trivial,
    fun v w is edge => absurd edge.1.lt (black v is), fun v is path => ?_, fun _ => nofun⟩
  · rw [mark, start, Array.getElem?_replicate]
    split <;> exact nofun
  · obtain ⟨w, edge, -⟩ := Relation.TransGen.head'_iff.1 path
    exact black v is edge.1.lt

theorem Sound.idle (h : s.Sound g none) (is : s.stack = []) (above : Option Nat) :
    s.Sound g above :=
  ⟨h.size, h.gray, h.nodup, is ▸ trivial, h.settled, h.acyclic, h.found⟩

theorem Sound.enter (h : s.Sound g (some w)) (white : s.mark w = .white) :
    (s.enter g w).Sound g none := by
  have mark := mark_enter (g := g) white
  have new : w ∉ s.stack.map Frame.vertex := by
    rw [← h.gray, white]
    exact nofun
  have black : ∀ v, (s.enter g w).mark v = .black ↔ s.mark v = .black := by
    intro v
    rw [mark, Function.update_apply]
    split
    · subst v
      rw [white]
      exact iff_of_false nofun nofun
    · exact Iff.rfl
  refine ⟨Array.size_setIfInBounds.trans h.size, fun v => ?_, List.nodup_cons.2 ⟨new, h.nodup⟩,
    ⟨nofun, ⟨[], rfl, nofun⟩, ?_⟩, fun v u is edge => ?_, fun v is => ?_, h.found⟩
  · rw [mark, Function.update_apply, Search.enter, List.map_cons, List.mem_cons, ← h.gray]
    split
    · exact iff_of_true rfl (.inl ‹_›)
    · exact (or_iff_right ‹_›).symm
  · exact h.tried.mono (fun _ => id) (fun v => (black v).2) (fun v => .inr) fun _ => id
  · rw [black] at is ⊢
    exact h.settled v u is edge
  · exact h.acyclic v ((black v).1 is)

theorem Sound.top_gray (h : s.Sound g above) (is : s.stack = ⟨v, pending⟩ :: below) :
    s.mark v = .gray := by
  rw [h.gray, is]
  exact List.mem_cons_self

theorem Sound.edge (h : s.Sound g above) (is : s.stack = ⟨v, w :: pending⟩ :: below) :
    g.Edge v w := by
  have tried := h.tried
  rw [is] at tried
  obtain ⟨-, ⟨tried, all, -⟩, -⟩ := tried
  rw [Edge, all]
  exact List.mem_append_right tried List.mem_cons_self

theorem Sound.black_of_tried (h : s.Sound g none) (is : s.stack = ⟨v, []⟩ :: below)
    (edge : s.Open g v w) : s.mark w = .black := by
  have tried := h.tried
  rw [is] at tried
  obtain ⟨-, ⟨tried, all, leads⟩, -⟩ := tried
  rw [List.append_nil] at all
  have mem : w ∈ tried := all ▸ edge.1
  rcases leads w mem with black | up | closes
  · exact black
  · cases up
  · exact absurd closes edge.2

theorem Sound.leave (h : s.Sound g none) (is : s.stack = ⟨v, []⟩ :: below) :
    Sound g none { s.setMark v .black with stack := below } := by
  have gray := h.top_gray is
  have mark : Search.mark { s.setMark v .black with stack := below } =
      Function.update s.mark v .black := mark_setMark (lt_of_mark gray (by decide)) .black
  have black : ∀ w, s.mark w = .black → Function.update s.mark v .black w = .black := by
    intro w black
    rw [Function.update_apply, black, ite_self]
  have nodup := h.nodup
  have tried := h.tried
  rw [is] at nodup tried
  rw [List.map_cons, List.nodup_cons] at nodup
  refine ⟨Array.size_setIfInBounds.trans h.size, fun u => ?_, nodup.2,
    tried.2.2.mono (fun _ => id) ?_ ?_ nofun, fun u w => ?_, fun u => ?_, h.found⟩
  · have before := h.gray u
    rw [is, List.map_cons, List.mem_cons] at before
    rw [mark, Function.update_apply]
    split
    · subst u
      exact iff_of_false nofun nodup.1
    · exact before.trans (or_iff_right ‹_›)
  · rw [mark]
    exact black
  · rintro w ⟨⟩
    rw [mark, Function.update_self]
    exact .inl rfl
  · intro settled edge
    rw [mark] at settled ⊢
    by_cases same : u = v
    · subst u
      exact black w (h.black_of_tried is edge)
    · rw [Function.update_of_ne same] at settled
      exact black w (h.settled u w settled edge)
  · intro settled path
    rw [mark] at settled
    by_cases same : u = v
    · subst u
      -- A path back to `v` would go through black vertices only, but `v` is gray.
      obtain ⟨w, edge, back⟩ := Relation.TransGen.head'_iff.1 path
      have again := h.black_of_path back (h.black_of_tried is edge)
      rw [gray] at again
      cases again
    · rw [Function.update_of_ne same] at settled
      exact h.acyclic u settled path

theorem Sound.advance (h : s.Sound g none) (is : s.stack = ⟨v, w :: pending⟩ :: below)
    {cycles : List (List Nat)} (sub : s.cycles ⊆ cycles) (found : ∀ c ∈ cycles, g.IsCycle c)
    (only : ∀ u ∈ above, u = w)
    (leads : s.mark w = .black ∨ w ∈ above ∨ ∃ c ∈ cycles, c.getLast? = some v ∧ c.head? = some w) :
    Sound g above { s with stack := ⟨v, pending⟩ :: below, cycles } := by
  have opens : ∀ u w, Open g { s with stack := ⟨v, pending⟩ :: below, cycles } u w →
      s.Open g u w := fun u w edge => ⟨edge.1, fun closes => edge.2 (closes.mono sub)⟩
  have gray := h.gray
  have nodup := h.nodup
  have tried := h.tried
  rw [is] at gray nodup tried
  obtain ⟨-, ⟨tried, all, led⟩, rest⟩ := tried
  refine ⟨h.size, gray, nodup, ⟨fun u mem => ?_, ⟨tried ++ [w], ?_, fun u mem => ?_⟩, ?_⟩,
    fun u w settled edge => h.settled u w settled (opens u w edge),
    fun u settled path => h.acyclic u settled (Relation.TransGen.mono opens u u path), found⟩
  · rw [only u mem]
    exact h.edge is
  · rw [List.append_assoc]
    exact all
  · rcases List.mem_append.1 mem with mem | mem
    · rcases led u mem with black | up | closes
      · exact .inl black
      · cases up
      · exact .inr (.inr (closes.mono sub))
    · rw [List.mem_singleton.1 mem]
      exact leads
  · exact rest.mono sub (fun _ => id) (fun _ => .inr) fun _ => id

theorem Sound.isCycle (h : s.Sound g above) (is : s.stack = ⟨v, pending⟩ :: below)
    (gray : s.mark w = .gray) (edge : g.Edge v w) :
    ∃ c, s.path.dropWhile (· != w) = w :: c ∧ (w :: c).getLast? = some v ∧ g.IsCycle (w :: c) := by
  have chain : s.path.IsChain g.Edge := List.isChain_reverse.2 h.tried.chain
  have nodup : s.path.Nodup := List.nodup_reverse.2 h.nodup
  have last : s.path.getLast? = some v := by
    rw [path, List.getLast?_reverse, is]
    rfl
  have mem : w ∈ s.path := List.mem_reverse.2 ((h.gray w).1 gray)
  obtain ⟨before, c, split, out⟩ := List.eq_append_cons_of_mem mem
  rw [split] at chain nodup last
  rw [List.getLast?_append_cons] at last
  refine ⟨c, ?_, last, ?_, chain.right_of_append, v, w, last, rfl, edge⟩
  · rw [split, List.dropWhile_append_of_pos, List.dropWhile_cons_of_neg]
    · simp
    · intro u mem
      simpa using ne_of_mem_of_not_mem mem out
  · exact nodup.of_append_right

theorem step_try (g : Digraph) (is : s.stack = ⟨v, w :: pending⟩ :: below) :
    step g s = match s.mark w with
      | .white => { s with stack := ⟨v, pending⟩ :: below }.enter g w
      | .gray => { s with stack := ⟨v, pending⟩ :: below,
                          cycles := s.path.dropWhile (· != w) :: s.cycles }
      | .black => { s with stack := ⟨v, pending⟩ :: below } := by
  rw [step, path, is]
  rfl

theorem cycles_step (g : Digraph) (s : Search) : (step g s).cycles = s.cycles ∨
    ∃ w, (step g s).cycles = s.path.dropWhile (· != w) :: s.cycles := by
  cases is : s.stack with
  | nil =>
    rw [step, is]
    exact .inl rfl
  | cons f below =>
    obtain ⟨v, pending⟩ := f
    cases pending with
    | nil =>
      rw [step, is]
      exact .inl rfl
    | cons w pending =>
      rw [step_try g is]
      cases s.mark w with
      | white => exact .inl rfl
      | gray => exact .inr ⟨w, rfl⟩
      | black => exact .inl rfl

theorem Sound.step (h : s.Sound g none) : (step g s).Sound g none := by
  cases is : s.stack with
  | nil =>
    rw [Search.step, is]
    exact h
  | cons f below =>
    obtain ⟨v, pending⟩ := f
    cases pending with
    | nil =>
      rw [Search.step, is]
      exact h.leave is
    | cons w pending =>
      rw [step_try g is]
      cases color : s.mark w with
      | white =>
        -- For a moment the stack is a path to a vertex that is not on it yet.
        refine (h.advance is (fun _ => id) h.found ?_ (.inr (.inl rfl))).enter color
        rintro u ⟨⟩
        rfl
      | gray =>
        obtain ⟨c, closed, last, isCycle⟩ := h.isCycle is color (h.edge is)
        refine h.advance is (List.subset_cons_self _ _) ?_ nofun
          (.inr (.inr ⟨w :: c, ?_, last, rfl⟩))
        · rw [closed]
          exact List.forall_mem_cons.2 ⟨isCycle, h.found⟩
        · rw [closed]
          exact List.mem_cons_self
      | black => exact h.advance is (fun _ => id) h.found nofun (.inl color)

end Step

section Tasks

def tasks (g : Digraph) (s : Search) : List Task :=
  s.stack.flatMap Frame.tasks ++
    (g.vertices.filter (s.mark · = .white)).flatMap fun v => (Frame.mk v (g.successors v)).tasks

def task? (s : Search) : Option Task := s.stack.head?.bind fun f => f.tasks.head?

theorem tasks_enter (size : s.marks.size = g.size) (white : s.mark w = .white) :
    ((s.enter g w).tasks g).Perm (s.tasks g) := by
  have lt : w < g.size := size ▸ lt_of_mark white (by decide)
  have perm : (g.vertices.filter (s.mark · = .white)).Perm
      (w :: g.vertices.filter ((s.enter g w).mark · = .white)) := by
    rw [mark_enter white]
    refine filter_vertices_perm lt (by simpa using white) (by simp) fun v other => ?_
    rw [Function.update_of_ne other]
  refine .trans ?_ ((perm.flatMap_right _).symm.append_left _)
  rw [tasks, Search.enter, List.flatMap_cons, List.flatMap_cons, List.append_assoc]
  exact List.perm_append_comm_assoc _ _ _

theorem tasks_leave (g : Digraph) (gray : s.mark v = .gray) :
    tasks g { s.setMark v .black with stack := below } = tasks g { s with stack := below } := by
  have same : g.vertices.filter ((s.setMark v .black).mark · = .white) =
      g.vertices.filter (s.mark · = .white) := by
    rw [mark_setMark (lt_of_mark gray (by decide))]
    refine List.filter_congr fun w _ => ?_
    rw [Function.update_apply]
    split
    · subst w
      rw [gray]
      rfl
    · rfl
  exact congrArg (fun vs : List Nat => below.flatMap Frame.tasks ++
    vs.flatMap fun v => (Frame.mk v (g.successors v)).tasks) same

theorem Sound.tasks_step (h : s.Sound g none) (left : s.stack ≠ []) :
    ∃ task, s.task? = some task ∧ (s.tasks g).Perm (task :: (Search.step g s).tasks g) := by
  obtain ⟨⟨v, pending⟩, below, is⟩ := List.exists_cons_of_ne_nil left
  cases pending with
  | nil =>
    refine ⟨.leave v, by rw [task?, is]; rfl, ?_⟩
    have left : Search.step g s = { s.setMark v .black with stack := below } := by
      rw [Search.step, is]
    rw [left, tasks_leave g (h.top_gray is), tasks, is]
    rfl
  | cons w pending =>
    refine ⟨.examine v w, by rw [task?, is]; rfl, ?_⟩
    have tried (cycles : List (List Nat)) : s.tasks g =
        .examine v w :: tasks g { s with stack := ⟨v, pending⟩ :: below, cycles } := by
      rw [tasks, is]
      rfl
    rw [step_try g is]
    cases color : s.mark w with
    | white =>
      have size : Array.size { s with stack := ⟨v, pending⟩ :: below }.marks = g.size := h.size
      rw [tried s.cycles]
      exact (tasks_enter size color).symm.cons _
    | gray => exact .of_eq (tried _)
    | black => exact .of_eq (tried s.cycles)

theorem successors_vertices (g : Digraph) : g.vertices.map g.successors = g.adjacency.toList := by
  refine List.ext_getElem (by simp [vertices, size]) fun v lt lt' => ?_
  simp [vertices, successors, Array.getElem?_eq_getElem (by simpa using lt')]

theorem edgeCount_eq (g : Digraph) :
    g.edgeCount = (g.vertices.flatMap g.successors).length := by
  rw [List.flatMap_def, successors_vertices]
  rfl

theorem length_tasks (g : Digraph) (vs : List Nat) :
    (vs.flatMap fun v => (Frame.mk v (g.successors v)).tasks).length =
      vs.length + (vs.flatMap g.successors).length := by
  induction vs with
  | nil => rfl
  | cons v vs ih =>
    simp only [List.flatMap_cons, List.length_append, List.length_cons, ih, Frame.length_tasks]
    omega

theorem length_tasks_le (g : Digraph) (idle : s.stack = []) : (s.tasks g).length ≤ budget g := by
  have all : (g.vertices.flatMap fun v => (Frame.mk v (g.successors v)).tasks).length =
      budget g := by
    rw [length_tasks, ← edgeCount_eq, vertices, List.length_range]
    rfl
  rw [tasks, idle, List.flatMap_nil, List.nil_append, ← all]
  exact (List.filter_sublist.flatMap _).length_le

end Tasks

end Search

end Digraph

end Arbiter
