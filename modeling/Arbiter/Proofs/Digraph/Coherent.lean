import Arbiter.Digraph
import Arbiter.Proofs.Interner

namespace Arbiter

namespace Digraph

def Edge (g : Digraph) (u v : Nat) : Prop := v ∈ g.successors u

def Joins (g : Digraph) (source target : String) : Prop :=
  ∃ u v, g.names.name? u = some source ∧ g.names.name? v = some target ∧ g.Edge u v

structure Coherent (g : Digraph) : Prop where
  names : g.names.Coherent
  size : g.size = g.names.size
  closed : ∀ u v, g.Edge u v → v < g.size

variable {g : Digraph} {name source target : String} {u v : Nat}

theorem Edge.lt (h : g.Edge u v) : u < g.size := by
  by_contra out
  rw [Edge, successors, Array.getElem?_eq_none (Nat.le_of_not_lt out)] at h
  cases h

theorem filter_vertices_perm {p q : Nat → Bool} (lt : v < g.size) (inside : p v = true)
    (outside : q v = false) (others : ∀ w, w ≠ v → q w = p w) :
    (g.vertices.filter p).Perm (v :: g.vertices.filter q) := by
  have out : v ∉ g.vertices.filter q := by
    rw [List.mem_filter, outside]
    exact fun mem => Bool.false_ne_true mem.2
  refine (List.perm_ext_iff_of_nodup (List.nodup_range.filter p)
    (List.nodup_cons.2 ⟨out, List.nodup_range.filter q⟩)).2 fun w => ?_
  rw [List.mem_cons, List.mem_filter, List.mem_filter]
  by_cases same : w = v
  · subst w
    exact iff_of_true ⟨List.mem_range.2 lt, inside⟩ (.inl rfl)
  · rw [or_iff_right same, others w same]
    exact Iff.rfl

theorem coherent_empty : Coherent ∅ :=
  ⟨Interner.coherent_empty, rfl, fun _ _ h => absurd h.lt (Nat.not_lt_zero _)⟩

theorem names_mention (g : Digraph) (name : String) :
    (g.mention name).1.names = (g.names.intern name).1 := rfl

theorem successors_mention (g : Digraph) (name : String) (u : Nat) :
    (g.mention name).1.successors u = g.successors u := by
  rw [successors, successors, mention]
  dsimp only
  split
  · rw [Array.getElem?_push]
    split
    · rw [‹u = _›, Array.getElem?_size]
      rfl
    · rfl
  · rfl

theorem edge_mention : (g.mention name).1.Edge u v ↔ g.Edge u v := by
  rw [Edge, successors_mention]
  exact Iff.rfl

namespace Coherent

theorem size_mention (c : g.Coherent) (name : String) :
    (g.mention name).1.size = (g.names.intern name).1.size := by
  have size := c.size
  rw [Digraph.size] at size
  rw [mention, Digraph.size]
  by_cases mem : name ∈ g.names.toList
  · obtain ⟨h, known, lt⟩ := c.names.intern_of_mem mem
    simp only [known]
    rw [if_neg (by rw [c.size]; exact Nat.ne_of_lt lt), size]
  · rw [Interner.intern_of_new (c.names.handle?_eq_none.2 mem)]
    simp only [c.size, if_true, Array.size_push, size]
    exact (Array.size_push _).symm

protected theorem mention (c : g.Coherent) (name : String) : (g.mention name).1.Coherent := by
  refine ⟨c.names.intern name, c.size_mention name, fun u v h => ?_⟩
  rw [edge_mention] at h
  rw [c.size_mention]
  exact Nat.lt_of_lt_of_le (c.size ▸ c.closed u v h) (c.names.size_intern_le name)

theorem name?_mention (c : g.Coherent) (name : String) :
    (g.mention name).1.names.name? (g.mention name).2 = some name := c.names.name?_intern name

theorem name?_kept (c : g.Coherent) (e : g.names.name? u = some name) (other : String) :
    (g.mention other).1.names.name? u = some name := c.names.name?_kept e other

theorem joins_mention (c : g.Coherent) (name : String) :
    (g.mention name).1.Joins source target ↔ g.Joins source target := by
  constructor
  · rintro ⟨u, v, hu, hv, edge⟩
    rw [edge_mention] at edge
    rw [names_mention, c.names.name?_intern_of_lt (c.size ▸ edge.lt)] at hu
    rw [names_mention, c.names.name?_intern_of_lt (c.size ▸ c.closed u v edge)] at hv
    exact ⟨u, v, hu, hv, edge⟩
  · rintro ⟨u, v, hu, hv, edge⟩
    exact ⟨u, v, c.name?_kept hu name, c.name?_kept hv name, edge_mention.2 edge⟩

end Coherent

section Append

theorem successors_append (g : Digraph) (u v x : Nat) (lt : u < g.size) :
    ({ g with adjacency := g.adjacency.modify u (· ++ [v]) } : Digraph).successors x =
      if u = x then g.successors x ++ [v] else g.successors x := by
  simp only [successors, Array.getElem?_modify]
  split
  · subst x
    rw [Array.getElem?_eq_getElem lt]
    rfl
  · rfl

theorem edge_append {x y : Nat} (lt : u < g.size) :
    ({ g with adjacency := g.adjacency.modify u (· ++ [v]) } : Digraph).Edge x y ↔
      g.Edge x y ∨ x = u ∧ y = v := by
  rw [Edge, successors_append g u v x lt]
  split
  · subst x
    rw [List.mem_append, List.mem_singleton, eq_self, true_and]
    exact Iff.rfl
  · rw [or_iff_left]
    · exact Iff.rfl
    · rintro ⟨rfl, -⟩
      exact ‹¬ x = x› rfl

end Append

section AddEdge

variable (g source target)

def mentionBoth : Digraph := ((g.mention source).1.mention target).1

theorem names_addEdge :
    (g.addEdge source target).names = ((g.names.intern source).1.intern target).1 := by
  rw [addEdge]
  dsimp only
  split <;> rfl

variable {g source target}

theorem edge_addEdge {x y : Nat} (lt : (g.mention source).2 < (g.mentionBoth source target).size) :
    (g.addEdge source target).Edge x y ↔ (g.mentionBoth source target).Edge x y ∨
      x = (g.mention source).2 ∧ y = ((g.mention source).1.mention target).2 := by
  rw [addEdge]
  dsimp only
  split
  · rw [or_iff_left_of_imp]
    · exact Iff.rfl
    · rintro ⟨rfl, rfl⟩
      assumption
  · exact edge_append lt

end AddEdge

namespace Coherent

protected theorem mentionBoth (c : g.Coherent) (source target : String) :
    (g.mentionBoth source target).Coherent := (c.mention source).mention target

theorem source_mentionBoth (c : g.Coherent) (source target : String) :
    (g.mentionBoth source target).names.name? (g.mention source).2 = some source :=
  (c.mention source).name?_kept (c.name?_mention source) target

theorem target_mentionBoth (c : g.Coherent) (source target : String) :
    (g.mentionBoth source target).names.name? ((g.mention source).1.mention target).2 =
      some target := (c.mention source).name?_mention target

theorem source_lt (c : g.Coherent) (source target : String) :
    (g.mention source).2 < (g.mentionBoth source target).size := by
  rw [(c.mentionBoth source target).size]
  exact Interner.lt_of_name? (c.source_mentionBoth source target)

theorem target_lt (c : g.Coherent) (source target : String) :
    ((g.mention source).1.mention target).2 < (g.mentionBoth source target).size := by
  rw [(c.mentionBoth source target).size]
  exact Interner.lt_of_name? (c.target_mentionBoth source target)

theorem size_addEdge (g : Digraph) (source target : String) :
    (g.addEdge source target).size = (g.mentionBoth source target).size := by
  rw [addEdge]
  dsimp only
  split
  · rfl
  · exact Array.size_modify

protected theorem addEdge (c : g.Coherent) (source target : String) :
    (g.addEdge source target).Coherent := by
  have both := c.mentionBoth source target
  refine ⟨?_, ?_, fun u v edge => ?_⟩
  · rw [names_addEdge]
    exact both.names
  · rw [size_addEdge, names_addEdge]
    exact both.size
  · rw [size_addEdge]
    rw [edge_addEdge (c.source_lt source target)] at edge
    rcases edge with edge | ⟨-, rfl⟩
    · exact both.closed u v edge
    · exact c.target_lt source target

theorem joins_addEdge (c : g.Coherent) {a b : String} :
    (g.addEdge source target).Joins a b ↔ g.Joins a b ∨ a = source ∧ b = target := by
  have src := c.source_mentionBoth source target
  have tgt := c.target_mentionBoth source target
  rw [← c.joins_mention source, ← (c.mention source).joins_mention target, Joins, names_addEdge]
  simp only [edge_addEdge (c.source_lt source target)]
  constructor
  · rintro ⟨u, v, hu, hv, edge | ⟨rfl, rfl⟩⟩
    · exact .inl ⟨u, v, hu, hv, edge⟩
    · exact .inr ⟨Option.some.inj (hu.symm.trans src), Option.some.inj (hv.symm.trans tgt)⟩
  · rintro (⟨u, v, hu, hv, edge⟩ | ⟨rfl, rfl⟩)
    · exact ⟨u, v, hu, hv, .inl edge⟩
    · exact ⟨_, _, src, tgt, .inr ⟨rfl, rfl⟩⟩

end Coherent

end Digraph

end Arbiter
