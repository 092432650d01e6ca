import Arbiter.Proofs.Digraph.Names
import Mathlib.Data.Finset.Card

namespace Arbiter

namespace Digraph

variable {g : Digraph} {name other source target : String} {u v : Nat}

section Edges

inductive Joined (g : Digraph) (source target : String) : Digraph → Prop
  | known (joins : g.Joins source target) : Joined g source target (g.mentionBoth source target)
  | added (new : ¬ g.Joins source target) (u v : Nat)
      (hu : (g.mentionBoth source target).names.name? u = some source)
      (hv : (g.mentionBoth source target).names.name? v = some target) :
      Joined g source target { g.mentionBoth source target with
        adjacency := (g.mentionBoth source target).adjacency.modify u (· ++ [v]) }

theorem Coherent.name?_inj (c : g.Coherent) (hu : g.names.name? u = some name)
    (hv : g.names.name? v = some name) : u = v := by
  rw [← c.names] at hu hv
  exact Option.some.inj (hu.symm.trans hv)

theorem Coherent.joins_mentionBoth (c : g.Coherent) (source target : String) {a b : String} :
    (g.mentionBoth source target).Joins a b ↔ g.Joins a b := by
  rw [mentionBoth, (c.mention source).joins_mention, c.joins_mention]

theorem Coherent.joined (c : g.Coherent) (source target : String) :
    Joined g source target (g.addEdge source target) := by
  have hu := c.source_mentionBoth source target
  have hv := c.target_mentionBoth source target
  have both := c.mentionBoth source target
  rw [addEdge]
  dsimp only
  split
  · exact .known ((c.joins_mentionBoth source target).1 ⟨_, _, hu, hv, ‹_›⟩)
  · refine .added (fun joins => ?_) _ _ hu hv
    obtain ⟨u, v, hu', hv', edge⟩ := (c.joins_mentionBoth source target).2 joins
    rw [both.name?_inj hu' hu, both.name?_inj hv' hv] at edge
    contradiction

theorem edgeCount_mention (g : Digraph) (name : String) :
    (g.mention name).1.edgeCount = g.edgeCount := by
  rw [edgeCount, edgeCount, mention]
  dsimp only
  split
  · simp
  · rfl

theorem edgeCount_mentionBoth (g : Digraph) (source target : String) :
    (g.mentionBoth source target).edgeCount = g.edgeCount := by
  rw [mentionBoth, edgeCount_mention, edgeCount_mention]

theorem length_flatten_modify {β : Type} (xss : List (List β)) (lt : u < xss.length) (x : β) :
    (xss.modify u (· ++ [x])).flatten.length = xss.flatten.length + 1 := by
  induction xss generalizing u with
  | nil => cases lt
  | cons xs xss ih =>
    cases u with
    | zero =>
      simp only [List.modify_zero_cons, List.flatten_cons, List.length_append,
        List.length_singleton]
      omega
    | succ u =>
      have lt := Nat.lt_of_succ_lt_succ lt
      simp only [List.modify_succ_cons, List.flatten_cons, List.length_append, ih lt]
      omega

theorem edgeCount_append (lt : u < g.size) (v : Nat) :
    ({ g with adjacency := g.adjacency.modify u (· ++ [v]) } : Digraph).edgeCount =
      g.edgeCount + 1 := by
  rw [edgeCount, edgeCount, Array.toList_modify]
  exact length_flatten_modify g.adjacency.toList lt v

end Edges

section Targets

def targets (g : Digraph) (name : String) : List String :=
  match g.vertex? name with
  | some v => (g.successors v).map g.name
  | none => []

namespace Coherent

theorem targets_eq (c : g.Coherent) (h : g.names.name? u = some name) :
    g.targets name = (g.successors u).map g.name := by
  rw [targets, vertex?, (c.names name u).2 h]

theorem targets_of_unknown (c : g.Coherent) (out : name ∉ g.names.toList) :
    g.targets name = [] := by
  rw [targets, vertex?, c.names.handle?_eq_none.2 out]

theorem exists_vertex (c : g.Coherent) (mem : name ∈ g.names.toList) :
    ∃ u, g.names.name? u = some name :=
  ⟨_, c.names.name?_iff.2 ⟨mem, rfl⟩⟩

theorem name_mention (c : g.Coherent) (lt : v < g.size) (name : String) :
    (g.mention name).1.name v = g.name v := by
  rw [Digraph.name, Digraph.name, names_mention, c.names.name?_intern_of_lt (c.size ▸ lt)]

theorem targets_mention (c : g.Coherent) (name other : String) :
    (g.mention name).1.targets other = g.targets other := by
  have after := c.mention name
  by_cases mem : other ∈ g.names.toList
  · obtain ⟨u, hu⟩ := c.exists_vertex mem
    rw [c.targets_eq hu, after.targets_eq (c.name?_kept hu name), successors_mention]
    exact List.map_congr_left fun v edge => c.name_mention (c.closed u v edge) name
  · rw [c.targets_of_unknown mem]
    by_cases mem' : other ∈ (g.mention name).1.names.toList
    · -- A new name is that of a vertex beyond the graph, which has no successors.
      obtain ⟨u, hu⟩ := after.exists_vertex mem'
      rw [after.targets_eq hu, successors_mention, List.map_eq_nil_iff]
      by_contra some_edge
      obtain ⟨v, edge⟩ := List.exists_mem_of_ne_nil _ some_edge
      rw [names_mention, c.names.name?_intern_of_lt (c.size ▸ Edge.lt edge)] at hu
      exact mem (c.names.name?_iff.1 hu).1
    · exact after.targets_of_unknown mem'

theorem targets_mentionBoth (c : g.Coherent) (source target other : String) :
    (g.mentionBoth source target).targets other = g.targets other := by
  rw [mentionBoth, (c.mention source).targets_mention, c.targets_mention]

theorem targets_append (c : g.Coherent) (hu : g.names.name? u = some source)
    (hv : g.names.name? v = some target) (other : String) :
    ({ g with adjacency := g.adjacency.modify u (· ++ [v]) } : Digraph).targets other =
      if source = other then g.targets other ++ [target] else g.targets other := by
  have lt : u < g.size := by
    rw [c.size]
    exact Interner.lt_of_name? hu
  have named : g.name v = target := by rw [Digraph.name, hv, Option.getD_some]
  by_cases mem : other ∈ g.names.toList
  · obtain ⟨w, hw⟩ := c.exists_vertex mem
    have vertex : ({ g with adjacency := g.adjacency.modify u (· ++ [v]) } : Digraph).vertex? other
        = some w := (c.names other w).2 hw
    rw [targets, vertex]
    dsimp only
    rw [successors_append g u v w lt, c.targets_eq hw]
    by_cases same : u = w
    · subst same
      rw [if_pos rfl, if_pos (Option.some.inj (hu.symm.trans hw)), List.map_append, ← named]
      rfl
    · rw [if_neg same, if_neg]
      · rfl
      · rintro rfl
        exact same (c.name?_inj hu hw)
  · have unknown : ({ g with adjacency := g.adjacency.modify u (· ++ [v]) } : Digraph).vertex? other
        = none := c.names.handle?_eq_none.2 mem
    rw [targets, unknown, if_neg, c.targets_of_unknown mem]
    rintro rfl
    exact mem (c.names.name?_iff.1 hu).1

end Coherent

end Targets

section Grow

inductive Growth where
  | mention (name : String)
  | join (source target : String)

def extend (g : Digraph) : Growth → Digraph
  | .mention name => (g.mention name).1
  | .join source target => g.addEdge source target

def grow (gs : List Growth) : Digraph := gs.foldl extend ∅

theorem grow_append (gs : List Growth) (x : Growth) : grow (gs ++ [x]) = (grow gs).extend x :=
  List.foldl_concat ..

theorem coherent_grow (gs : List Growth) : (grow gs).Coherent := by
  induction gs using List.reverseRecOn with
  | nil => exact coherent_empty
  | append_singleton gs x ih =>
    rw [grow_append]
    cases x with
    | mention name => exact ih.mention name
    | join source target => exact ih.addEdge source target

end Grow

section Track

/-- A graph with all its edges in a set besides, by which it knows an edge that comes again. -/
structure Tracked where
  graph : Digraph
  pairs : Finset (Nat × Nat)

namespace Tracked

def extend (t : Tracked) : Growth → Tracked
  | .mention name => ⟨(t.graph.mention name).1, t.pairs⟩
  | .join source target =>
    let (g, u) := t.graph.mention source
    let (g, v) := g.mention target
    if (u, v) ∈ t.pairs then ⟨g, t.pairs⟩
    else ⟨{ g with adjacency := g.adjacency.modify u (· ++ [v]) }, insert (u, v) t.pairs⟩

def grow (gs : List Growth) : Tracked := gs.foldl extend ⟨∅, ∅⟩

structure Agrees (t : Tracked) : Prop where
  mem_iff : ∀ u v, (u, v) ∈ t.pairs ↔ t.graph.Edge u v
  card : t.pairs.card = t.graph.edgeCount

variable {t : Tracked}

theorem agrees_mention (h : t.Agrees) (name : String) :
    (t.extend (.mention name)).Agrees := by
  refine ⟨fun u v => ?_, ?_⟩
  · exact (h.mem_iff u v).trans edge_mention.symm
  · exact h.card.trans (edgeCount_mention t.graph name).symm

theorem agrees_join (h : t.Agrees) (c : t.graph.Coherent) (source target : String) :
    (t.extend (.join source target)).Agrees ∧
      (t.extend (.join source target)).graph = t.graph.addEdge source target := by
  have both (u v : Nat) : (u, v) ∈ t.pairs ↔ (t.graph.mentionBoth source target).Edge u v := by
    rw [mentionBoth, edge_mention, edge_mention]
    exact h.mem_iff u v
  have lt := c.source_lt source target
  have count := h.card.trans (edgeCount_mentionBoth t.graph source target).symm
  rw [extend, addEdge]
  dsimp only
  by_cases known : ((t.graph.mention source).1.mention target).2 ∈
      ((t.graph.mention source).1.mention target).1.successors (t.graph.mention source).2
  · rw [if_pos ((both _ _).2 known), if_pos known]
    exact ⟨⟨both, count⟩, rfl⟩
  · have fresh := mt (both _ _).1 known
    rw [if_neg fresh, if_neg known]
    refine ⟨⟨fun u v => ?_, ?_⟩, rfl⟩
    · rw [Finset.mem_insert, Prod.mk.injEq, or_comm, both]
      exact (edge_append lt).symm
    · rw [Finset.card_insert_of_notMem fresh, count]
      exact (edgeCount_append lt _).symm

theorem agrees_grow (gs : List Growth) :
    (grow gs).Agrees ∧ (grow gs).graph = Digraph.grow gs := by
  induction gs using List.reverseRecOn with
  | nil =>
    refine ⟨⟨fun u v => iff_of_false (Finset.notMem_empty _) fun edge => ?_, rfl⟩, rfl⟩
    exact Nat.not_lt_zero u edge.lt
  | append_singleton gs x ih =>
    obtain ⟨agrees, same⟩ := ih
    have step : grow (gs ++ [x]) = (grow gs).extend x := List.foldl_concat ..
    rw [step, grow_append, ← same]
    cases x with
    | mention name => exact ⟨agrees_mention agrees name, rfl⟩
    | join source target => exact agrees_join agrees (same ▸ coherent_grow gs) source target

end Tracked

end Track

end Digraph

end Arbiter
