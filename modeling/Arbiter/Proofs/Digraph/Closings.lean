import Arbiter.Proofs.Digraph.Iterations

namespace Arbiter

universe u

/-- The edge that leads from the end of a cycle back to its beginning. -/
def Closing {β : Type u} (c : List β) (source target : β) : Prop :=
  c.getLast? = some source ∧ c.head? = some target

def Apart {β : Type u} (c c' : List β) : Prop :=
  ∀ source target, Closing c source target → ¬ Closing c' source target

namespace Digraph

def Simple (g : Digraph) : Prop := ∀ v, (g.successors v).Nodup

section Simple

variable {g : Digraph}

theorem simple_empty : Simple ∅ := fun _ => List.nodup_nil

theorem Simple.mention (h : g.Simple) (name : String) : (g.mention name).1.Simple := by
  intro v
  rw [successors_mention]
  exact h v

theorem Simple.addEdge (h : g.Simple) (c : g.Coherent) (source target : String) :
    (g.addEdge source target).Simple := by
  have both : (g.mentionBoth source target).Simple := (h.mention source).mention target
  intro v
  rw [Digraph.addEdge]
  dsimp only
  split
  · exact both v
  · refine (successors_append _ _ _ v (c.source_lt source target)) ▸ ?_
    split
    · subst v
      exact List.nodup_append_comm.1 (List.nodup_cons.2 ⟨‹_›, both _⟩)
    · exact both v

end Simple

namespace Search

variable {g : Digraph} {s : Search} {v w : Nat} {pending : List Nat} {below : List Frame}

structure Distinct (s : Search) : Prop where
  apart : s.cycles.Pairwise Apart
  tried : ∀ u w, s.Closes u w →
    s.mark u ≠ .white ∧ ∀ f ∈ s.stack, f.vertex = u → w ∉ f.pending

namespace Distinct

theorem enter (h : s.Distinct) (white : s.mark w = .white) : (s.enter g w).Distinct := by
  refine ⟨h.apart, fun u x closes => ?_⟩
  obtain ⟨seen, tried⟩ := h.tried u x closes
  refine ⟨visited_setMark seen (by decide), List.forall_mem_cons.2 ⟨?_, tried⟩⟩
  rintro rfl
  exact absurd white seen

theorem leave (h : s.Distinct) (is : s.stack = ⟨v, pending⟩ :: below) :
    Distinct { s.setMark v .black with stack := below } := by
  refine ⟨h.apart, fun u x closes => ?_⟩
  obtain ⟨seen, tried⟩ := h.tried u x closes
  refine ⟨visited_setMark seen (by decide), fun f mem => tried f ?_⟩
  rw [is]
  exact List.mem_cons_of_mem _ mem

theorem advance (h : s.Distinct) (is : s.stack = ⟨v, w :: pending⟩ :: below) :
    Distinct { s with stack := ⟨v, pending⟩ :: below } := by
  refine ⟨h.apart, fun u x closes => ?_⟩
  obtain ⟨seen, tried⟩ := h.tried u x closes
  rw [is, List.forall_mem_cons] at tried
  refine ⟨seen, List.forall_mem_cons.2 ⟨fun same mem => ?_, tried.2⟩⟩
  exact tried.1 same (List.mem_cons_of_mem w mem)

theorem close (h : s.Distinct) (simple : g.Simple) (sound : s.Sound g none)
    (is : s.stack = ⟨v, w :: pending⟩ :: below) {c : List Nat} (closing : Closing c v w) :
    Distinct { s with stack := ⟨v, pending⟩ :: below, cycles := c :: s.cycles } := by
  have ends {a b : Nat} (other : Closing c a b) : a = v ∧ b = w :=
    ⟨Option.some.inj (other.1.symm.trans closing.1), Option.some.inj (other.2.symm.trans closing.2)⟩
  have top : ⟨v, w :: pending⟩ ∈ s.stack := is ▸ List.mem_cons_self
  constructor
  · refine List.pairwise_cons.2 ⟨fun c' mem a b closing' again => ?_, h.apart⟩
    obtain ⟨rfl, rfl⟩ := ends closing'
    exact (h.tried a b ⟨c', mem, again⟩).2 _ top rfl List.mem_cons_self
  · rintro a b ⟨c', mem, closes⟩
    rcases List.mem_cons.1 mem with rfl | mem
    · obtain ⟨rfl, rfl⟩ := ends closes
      refine ⟨?_, fun f mem same => ?_⟩
      · show s.mark a ≠ .white
        rw [sound.top_gray is]
        decide
      · have nodup := sound.nodup
        have tried := sound.tried
        rw [is] at nodup tried
        rw [List.map_cons, List.nodup_cons] at nodup
        rcases List.mem_cons.1 mem with rfl | mem
        · obtain ⟨-, ⟨tried, all, -⟩, -⟩ := tried
          have listed := simple a
          rw [all] at listed
          exact (List.nodup_cons.1 listed.of_append_right).1
        · exact absurd (List.mem_map.2 ⟨f, mem, same⟩) nodup.1
    · exact (h.advance is).tried a b ⟨c', mem, closes⟩

theorem step (h : s.Distinct) (simple : g.Simple) (sound : s.Sound g none) :
    (Search.step g s).Distinct := by
  cases is : s.stack with
  | nil =>
    rw [Search.step, is]
    exact h
  | cons f below =>
    obtain ⟨v, pending⟩ := f
    cases pending with
    | nil =>
      rw [Search.step, is]
      exact h.leave is
    | cons w pending =>
      rw [step_try g is]
      cases color : s.mark w with
      | white => exact (h.advance is).enter color
      | gray =>
        obtain ⟨c, closed, last, -⟩ := sound.isCycle is color (sound.edge is)
        rw [closed]
        exact h.close simple sound is ⟨last, rfl⟩
      | black => exact h.advance is

end Distinct

theorem distinct_start (g : Digraph) : (start g).Distinct := by
  refine ⟨.nil, ?_⟩
  rintro u w ⟨c, mem, -⟩
  cases mem

theorem distinct (simple : g.Simple) (firstOnly : Bool) (roots : List Nat) :
    (roots.foldl (visit g firstOnly) (start g)).Distinct := by
  obtain ⟨trace, runs⟩ := exists_runs g firstOnly roots
  have kept := runs.kept (fun s v _ _ white h => h.enter white)
    (fun s sound _ h => h.step simple sound) (sound_start g) (distinct_start g)
  exact kept.2.2

end Search

variable {g : Digraph}

theorem Apart.symm {β : Type u} {c c' : List β} (h : Apart c c') : Apart c' c :=
  fun a b closing closing' => h a b closing' closing

theorem cycles_apart (simple : g.Simple) (firstOnly : Bool) (roots : List Nat) :
    (g.cycles firstOnly roots).Pairwise Apart :=
  List.pairwise_reverse.2 ((Search.distinct simple firstOnly roots).apart.imp Apart.symm)

theorem acyclic_of_unclosed (g : Digraph) (v : Nat) : ¬ Relation.TransGen
    (fun u w => g.Edge u w ∧ ∀ c ∈ g.cycles false g.vertices, ¬ Closing c u w) v v := by
  intro path
  refine (Search.searched g false g.vertices).acyclic nofun v (path.mono (fun u w edge => ?_) v v)
  refine ⟨edge.1, ?_⟩
  rintro ⟨c, mem, closing⟩
  exact edge.2 c (List.mem_reverse.2 mem) closing

end Digraph

end Arbiter
