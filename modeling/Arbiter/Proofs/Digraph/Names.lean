import Arbiter.Proofs.Digraph.Linear

namespace Arbiter

namespace Digraph

/-- `order` lists each of the names once, and those that are linked in that order. -/
structure Arranges (names : List String) (linked : String → String → Prop)
    (order : List String) : Prop where
  nodup : order.Nodup
  mem_iff : ∀ name, name ∈ order ↔ name ∈ names
  before : ∀ source target, linked source target → order.idxOf source < order.idxOf target

variable {g : Digraph} {name source target : String} {u v : Nat} {vs : List Nat}
  {order : List String}

def position (g : Digraph) (name : String) : Nat := g.names.toList.idxOf name

theorem idxOf_map {β : Type} [DecidableEq β] {γ : Type} [DecidableEq γ] {f : β → γ} {x : β}
    {xs : List β} (injective : ∀ y ∈ xs, f y = f x → y = x) :
    (xs.map f).idxOf (f x) = xs.idxOf x := by
  induction xs with
  | nil => rfl
  | cons y xs ih =>
    rw [List.forall_mem_cons] at injective
    rw [List.map_cons]
    by_cases same : y = x
    · rw [same, List.idxOf_cons_self, List.idxOf_cons_self]
    · rw [List.idxOf_cons_ne _ (mt injective.1 same), List.idxOf_cons_ne _ same, ih injective.2]

theorem name_congr {g' : Digraph} (names : g.names.toList = g'.names.toList) :
    g.name = g'.name := by
  funext v
  rw [Digraph.name, Digraph.name, Interner.name?_eq, Interner.name?_eq, names]

theorem Arranges.before_trans {names : List String} {linked : String → String → Prop}
    (h : Arranges names linked order) (path : Relation.TransGen linked source target) :
    order.idxOf source < order.idxOf target := by
  induction path with
  | single link => exact h.before _ _ link
  | tail _ link ih => exact Nat.lt_trans ih (h.before _ _ link)

namespace Coherent

theorem position_lt_iff (c : g.Coherent) : g.position name < g.size ↔ name ∈ g.names.toList := by
  rw [c.size, Interner.size_eq, position, List.idxOf_lt_length_iff]

theorem position_inj (h : name ∈ g.names.toList) :
    g.position source = g.position name ↔ source = name := by
  rw [eq_comm, position, position, List.idxOf_inj h, eq_comm]

theorem idxOf_position (mem : name ∈ g.names.toList) (order : List String) :
    (order.map g.position).idxOf (g.position name) = order.idxOf name :=
  idxOf_map fun _ _ => (position_inj mem).1

theorem name?_name (c : g.Coherent) (lt : v < g.size) : g.names.name? v = some (g.name v) := by
  rw [c.size, Interner.size_eq] at lt
  rw [name, Interner.name?_eq, List.getElem?_eq_getElem lt, Option.getD_some]

theorem name_mem (c : g.Coherent) (lt : v < g.size) : g.name v ∈ g.names.toList :=
  (c.names.name?_iff.1 (c.name?_name lt)).1

theorem position_name (c : g.Coherent) (lt : v < g.size) : g.position (g.name v) = v :=
  (c.names.name?_iff.1 (c.name?_name lt)).2

theorem name_position (c : g.Coherent) (mem : name ∈ g.names.toList) :
    g.name (g.position name) = name := by
  rw [Digraph.name, c.names.name?_iff.2 ⟨mem, Eq.refl (g.position name)⟩, Option.getD_some]

theorem joins_iff (c : g.Coherent) : g.Joins source target ↔ source ∈ g.names.toList ∧
    target ∈ g.names.toList ∧ g.Edge (g.position source) (g.position target) := by
  simp only [Joins, c.names.name?_iff]
  constructor
  · rintro ⟨u, v, ⟨mem, rfl⟩, ⟨mem', rfl⟩, edge⟩
    exact ⟨mem, mem', edge⟩
  · rintro ⟨mem, mem', edge⟩
    exact ⟨_, _, ⟨mem, rfl⟩, ⟨mem', rfl⟩, edge⟩

theorem joins_name (c : g.Coherent) (edge : g.Edge u v) : g.Joins (g.name u) (g.name v) :=
  ⟨u, v, c.name?_name edge.lt, c.name?_name (c.closed u v edge), edge⟩

theorem edge_iff (c : g.Coherent) :
    g.Edge u v ↔ u < g.size ∧ v < g.size ∧ g.Joins (g.name u) (g.name v) := by
  constructor
  · exact fun edge => ⟨edge.lt, c.closed u v edge, c.joins_name edge⟩
  · rintro ⟨lt, lt', joins⟩
    have edge := (c.joins_iff.1 joins).2.2
    rwa [c.position_name lt, c.position_name lt'] at edge

theorem linear_iff (c : g.Coherent) :
    g.Linear (order.map g.position) ↔ Arranges g.names.toList g.Joins order := by
  constructor
  · rintro ⟨nodup, mem_iff, before⟩
    refine ⟨nodup.of_map _, fun name => ⟨fun mem => ?_, fun mem => ?_⟩,
      fun source target joins => ?_⟩
    · exact c.position_lt_iff.1 ((mem_iff _).1 (List.mem_map_of_mem mem))
    · obtain ⟨name', mem', same⟩ := List.mem_map.1 ((mem_iff _).2 (c.position_lt_iff.2 mem))
      exact (position_inj mem).1 same ▸ mem'
    · obtain ⟨mem, mem', edge⟩ := c.joins_iff.1 joins
      rw [← idxOf_position mem, ← idxOf_position mem']
      exact before _ _ edge
  · rintro ⟨nodup, mem_iff, before⟩
    refine ⟨nodup.map_on fun x _ y mem => ?_, fun v => ⟨fun mem => ?_, fun lt => ?_⟩,
      fun u v edge => ?_⟩
    · exact (position_inj ((mem_iff y).1 mem)).1
    · obtain ⟨name, known, rfl⟩ := List.mem_map.1 mem
      exact c.position_lt_iff.2 ((mem_iff name).1 known)
    · exact List.mem_map.2 ⟨g.name v, (mem_iff _).2 (c.name_mem lt), c.position_name lt⟩
    · have lt := c.closed u v edge
      have before := before _ _ (c.joins_name edge)
      rw [← idxOf_position (c.name_mem edge.lt), ← idxOf_position (c.name_mem lt),
        c.position_name edge.lt, c.position_name lt] at before
      exact before

theorem acyclic_iff (c : g.Coherent) :
    g.Acyclic ↔ ∀ name, ¬ Relation.TransGen g.Joins name name := by
  constructor
  · intro acyclic name path
    have edge (a b : String) (joins : g.Joins a b) : g.Edge (g.position a) (g.position b) :=
      (c.joins_iff.1 joins).2.2
    exact acyclic (g.position name) (Relation.TransGen.lift g.position edge name name path)
  · intro acyclic v path
    exact acyclic (g.name v) (Relation.TransGen.lift g.name (fun _ _ => c.joins_name) v v path)

theorem linear_congr {g' : Digraph} (c : g.Coherent) (c' : g'.Coherent)
    (names : g.names.toList = g'.names.toList)
    (joins : ∀ source target, g.Joins source target ↔ g'.Joins source target) (vs : List Nat) :
    g.Linear vs ↔ g'.Linear vs := by
  have size : g.size = g'.size := by
    rw [c.size, c'.size, Interner.size_eq, Interner.size_eq, names]
  have edge : ∀ u v, g.Edge u v ↔ g'.Edge u v := by
    intro u v
    rw [c.edge_iff, c'.edge_iff, size, name_congr names, joins]
  constructor
  · rintro ⟨nodup, mem_iff, before⟩
    exact ⟨nodup, size ▸ mem_iff, fun u v e => before u v ((edge u v).2 e)⟩
  · rintro ⟨nodup, mem_iff, before⟩
    exact ⟨nodup, size ▸ mem_iff, fun u v e => before u v ((edge u v).1 e)⟩

end Coherent

end Digraph

end Arbiter
