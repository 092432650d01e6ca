import Arbiter.Proofs.Dependencies.History
import Arbiter.Proofs.Digraph.Closings

namespace Arbiter

universe u

section Circuits

variable {β : Type u} {linked r p : β → β → Prop} {c : List β} {found : List (List β)}
  {x y source target : β}

/-- A walk along links that ends where it begins; its first entry is not repeated. -/
structure Circuit (linked : β → β → Prop) (c : List β) : Prop where
  ne_nil : c ≠ []
  chain : (c ++ c.head?.toList).IsChain linked

def Takes (c : List β) (source target : β) : Prop := [source, target] <:+: c ++ c.head?.toList

/-- `found` has simple cycles only, and of every cycle enough to break it. -/
structure Covers (linked : β → β → Prop) (found : List (List β)) : Prop where
  simple : ∀ c ∈ found, Circuit linked c ∧ c.Nodup ∧ 2 ≤ c.length
  apart : found.Pairwise Apart
  met : ∀ c, Circuit linked c →
    ∃ c' ∈ found, ∃ source target, Closing c' source target ∧ Takes c source target
  broken : ∀ x, ¬ Relation.TransGen
    (fun source target => linked source target ∧ ∀ c ∈ found, ¬ Closing c source target) x x
  inside : ∀ x, Relation.TransGen linked x x →
    ∃ c ∈ found, ∀ y ∈ c, Relation.TransGen linked x y ∧ Relation.TransGen linked y x

theorem circuit_iff : Circuit linked c ↔ c.IsChain linked ∧
    ∃ source target, Closing c source target ∧ linked source target := by
  cases c with
  | nil => exact iff_of_false (fun h => h.ne_nil rfl) fun ⟨_, _, _, closing, _⟩ => nomatch closing.1
  | cons x xs =>
    obtain ⟨y, last⟩ := Option.ne_none_iff_exists'.1
      (mt List.getLast?_eq_none_iff.1 (List.cons_ne_nil x xs))
    have closed : (x :: xs ++ [x]).IsChain linked ↔ (x :: xs).IsChain linked ∧ linked y x := by
      rw [List.isChain_append]
      simp [last]
    constructor
    · rintro ⟨-, chain⟩
      obtain ⟨chain, link⟩ := closed.1 chain
      exact ⟨chain, y, x, ⟨last, rfl⟩, link⟩
    · rintro ⟨chain, y', x', ⟨last', ⟨⟩⟩, link⟩
      rw [last] at last'
      cases last'
      exact ⟨List.cons_ne_nil x xs, closed.2 ⟨chain, link⟩⟩

theorem Circuit.transGen (h : Circuit linked c) : ∃ x, Relation.TransGen linked x x := by
  obtain ⟨chain, source, target, ⟨last, first⟩, link⟩ := circuit_iff.1 h
  exact ⟨target, .tail' (Digraph.reaches_of_chain chain first last) link⟩

theorem Closing.reaches (closing : Closing c source target) (chain : c.IsChain linked)
    (mem : y ∈ c) : Relation.ReflTransGen linked target y ∧
      Relation.ReflTransGen linked y source := by
  obtain ⟨last, first⟩ := closing
  obtain ⟨before, after, rfl⟩ := List.append_of_mem mem
  rw [List.append_cons] at chain first
  rw [List.getLast?_append_cons] at last
  constructor
  · refine Digraph.reaches_of_chain chain.left_of_append ?_ List.getLast?_concat
    simpa using first
  · rw [← List.append_cons] at chain
    exact Digraph.reaches_of_chain chain.right_of_append rfl last

theorem transGen_between (path : Relation.TransGen r x y)
    (all : ∀ a b, Relation.ReflTransGen r x a → r a b → Relation.ReflTransGen r b y → p a b) :
    Relation.TransGen p x y := by
  induction path with
  | single link => exact .single (all _ _ .refl link .refl)
  | tail path link ih =>
    refine .tail (ih fun a b up ab on => all a b up ab (on.tail link)) ?_
    exact all _ _ path.to_reflTransGen link .refl

theorem Covers.of_broken (simple : ∀ c ∈ found, Circuit linked c ∧ c.Nodup ∧ 2 ≤ c.length)
    (apart : found.Pairwise Apart) (broken : ∀ x, ¬ Relation.TransGen
      (fun source target => linked source target ∧ ∀ c ∈ found, ¬ Closing c source target) x x) :
    Covers linked found := by
  refine ⟨simple, apart, fun c circuit => ?_, broken, fun x path => ?_⟩
  · by_contra unmet
    have unclosed : Circuit (fun source target =>
        linked source target ∧ ∀ c ∈ found, ¬ Closing c source target) c := by
      refine ⟨circuit.ne_nil, List.isChain_iff_forall_rel_of_append_cons_cons.2 ?_⟩
      intro a b before after split
      refine ⟨List.isChain_iff_forall_rel_of_append_cons_cons.1 circuit.chain split,
        fun c' mem closing => unmet ⟨c', mem, a, b, closing, before, after, ?_⟩⟩
      rw [split, List.append_assoc]
      rfl
    obtain ⟨x, path⟩ := unclosed.transGen
    exact broken x path
  · by_contra outside
    refine broken x (transGen_between path fun a b upto link on => ⟨link, fun c mem closing => ?_⟩)
    refine outside ⟨c, mem, fun y inside => ?_⟩
    obtain ⟨down, up⟩ := closing.reaches (circuit_iff.1 (simple c mem).1).1 inside
    exact ⟨(Relation.TransGen.tail' upto link).trans_left down,
      (Relation.TransGen.tail' up link).trans_left on⟩

theorem closing_map {γ : Type} {f : γ → β} {c : List γ} :
    Closing (c.map f) source target ↔ ∃ u v, Closing c u v ∧ f u = source ∧ f v = target := by
  rw [Closing, List.getLast?_map, List.head?_map, Option.map_eq_some_iff, Option.map_eq_some_iff]
  constructor
  · rintro ⟨⟨u, last, rfl⟩, v, first, rfl⟩
    exact ⟨u, v, ⟨last, first⟩, rfl, rfl⟩
  · rintro ⟨u, v, ⟨last, first⟩, rfl, rfl⟩
    exact ⟨⟨u, last, rfl⟩, v, first, rfl⟩

end Circuits

namespace Digraph

variable {g : Digraph} {c : List Nat} {u v : Nat}

theorem IsCycle.lt (h : g.IsCycle c) (mem : v ∈ c) : v < g.size := by
  obtain ⟨u, w, last, first, edge⟩ := h.closing
  rcases ((Closing.reaches ⟨last, first⟩ h.chain mem).2).cases_head with rfl | ⟨x, edge, -⟩
  · exact edge.lt
  · exact edge.lt

namespace Coherent

theorem name_inj (c : g.Coherent) (hu : u < g.size) (hv : v < g.size) (same : g.name u = g.name v) :
    u = v := by
  rw [← c.position_name hu, same, c.position_name hv]

theorem circuit_names (c : g.Coherent) {vs : List Nat} (h : g.IsCycle vs) :
    Circuit g.Joins (vs.map g.name) := by
  obtain ⟨u, v, last, first, edge⟩ := h.closing
  rw [circuit_iff, List.isChain_map]
  refine ⟨h.chain.imp fun _ _ => c.joins_name, g.name u, g.name v, ?_, c.joins_name edge⟩
  exact closing_map.2 ⟨u, v, ⟨last, first⟩, rfl, rfl⟩

theorem two_le_length (c : g.Coherent) (proper : ∀ name, ¬ g.Joins name name) {vs : List Nat}
    (h : g.IsCycle vs) : 2 ≤ vs.length := by
  obtain ⟨u, v, last, first, edge⟩ := h.closing
  match vs with
  | [] => cases last
  | [x] =>
    cases last
    cases first
    exact absurd (c.joins_name edge) (proper _)
  | _ :: _ :: _ => exact Nat.le_add_left 2 _

theorem simple_names (c : g.Coherent) (proper : ∀ name, ¬ g.Joins name name) {vs : List Nat}
    (h : g.IsCycle vs) : Circuit g.Joins (vs.map g.name) ∧ (vs.map g.name).Nodup ∧
      2 ≤ (vs.map g.name).length := by
  refine ⟨c.circuit_names h, ?_, ?_⟩
  · exact h.nodup.map_on fun u hu v hv => c.name_inj (h.lt hu) (h.lt hv)
  · rw [List.length_map]
    exact c.two_le_length proper h

theorem apart_names (c : g.Coherent) {vs ws : List Nat} (h : g.IsCycle vs) (h' : g.IsCycle ws)
    (apart : Apart vs ws) : Apart (vs.map g.name) (ws.map g.name) := by
  intro a b named named'
  obtain ⟨u, v, closing, rfl, rfl⟩ := closing_map.1 named
  obtain ⟨u', v', closing', same, same'⟩ := closing_map.1 named'
  have last := c.name_inj (h'.lt (List.mem_of_getLast? closing'.1))
    (h.lt (List.mem_of_getLast? closing.1)) same
  have first := c.name_inj (h'.lt (List.mem_of_head? closing'.2))
    (h.lt (List.mem_of_head? closing.2)) same'
  subst last first
  exact apart _ _ closing closing'

theorem broken_names (c : g.Coherent) (name : String) : ¬ Relation.TransGen
    (fun a b => g.Joins a b ∧
      ∀ c ∈ (g.cycles false g.vertices).map (·.map g.name), ¬ Closing c a b) name name := by
  intro path
  refine g.acyclic_of_unclosed (g.position name)
    (Relation.TransGen.lift g.position (fun a b link => ?_) name name path)
  obtain ⟨mem, mem', edge⟩ := c.joins_iff.1 link.1
  refine ⟨edge, fun vs found closing => link.2 _ (List.mem_map_of_mem found) ?_⟩
  exact closing_map.2 ⟨_, _, closing, c.name_position mem, c.name_position mem'⟩

theorem covers (c : g.Coherent) (simple : g.Simple) (proper : ∀ name, ¬ g.Joins name name) :
    Covers g.Joins ((g.cycles false g.vertices).map (·.map g.name)) := by
  refine .of_broken ?_ ?_ c.broken_names
  · rw [List.forall_mem_map]
    exact fun vs mem => c.simple_names proper (isCycle_of_mem mem)
  · rw [List.pairwise_map]
    exact (cycles_apart simple false g.vertices).imp_of_mem fun mem mem' =>
      c.apart_names (isCycle_of_mem mem) (isCycle_of_mem mem')

end Coherent

end Digraph

namespace Dependencies

variable {α : Type u}

theorem ids_allCycles (d : Dependencies α) : d.allCycles.map (·.map Node.id) =
    (d.graph.cycles false d.graph.vertices).map (·.map d.graph.name) := by
  rw [allCycles, List.map_map]
  exact List.map_congr_left fun vs _ => List.map_map

theorem simple_build [Identified α] (cs : List (Change α)) : (build cs).graph.Simple :=
  (build_induction (P := fun d => d.graph.Coherent ∧ d.graph.Simple)
    ⟨Digraph.coherent_empty, Digraph.simple_empty⟩
    (fun _ x h => ⟨h.1.mention (Identified.identity x), h.2.mention (Identified.identity x)⟩)
    (fun _ source target _ h => ⟨h.1.addEdge source target, h.2.addEdge h.1 source target⟩) cs).2

/-- All cycles reported are simple, no two of them are closed by the same edge, and every cycle
meets one of the edges that close them. -/
theorem allCycles_covers [Identified α] (cs : List (Change α)) :
    Covers (Linked cs) ((build cs).allCycles.map (·.map Node.id)) := by
  have proper (name : String) : ¬ (build cs).graph.Joins name name := by
    rw [joins_build]
    exact fun linked => linked.1 rfl
  rw [ids_allCycles, ← joins_build_eq]
  exact (coherent_build cs).covers (simple_build cs) proper

example : (build ([.connect "a" "b", .connect "b" "c", .connect "c" "a", .connect "c" "b"] :
    List (Change String))).allCycles.map (·.map Node.id) = [["a", "b", "c"], ["b", "c"]] := by
  decide

end Dependencies

end Arbiter
