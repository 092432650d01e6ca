import Arbiter.Proofs.Dependencies.History
import Arbiter.Proofs.Digraph.Cycles
import Arbiter.Proofs.Digraph.Peel
import Mathlib.Data.List.TFAE

namespace Arbiter

universe u

namespace Dependencies

variable {α : Type u}

section Answers

variable {d : Dependencies α} {order : List (Node α)}

theorem sort_eq_ok : d.sort = .ok order ↔ ∃ vs, d.graph.order = .ok vs ∧ vs.map d.node = order := by
  rw [sort]
  cases d.graph.order with
  | ok vs => simp
  | error left => simp

theorem ids_sort (d : Dependencies α) : d.sort.toOption.map (·.map Node.id) =
    d.graph.order.toOption.map (·.map d.graph.name) := by
  rw [sort]
  cases d.graph.order with
  | ok vs => exact congrArg some List.map_map
  | error left => rfl

theorem sort_ok_iff (c : d.graph.Coherent) :
    (∃ order, d.sort = .ok order) ↔ d.graph.Acyclic := by
  rw [← c.order_iff_acyclic]
  constructor
  · rintro ⟨order, ok⟩
    obtain ⟨vs, ok, -⟩ := sort_eq_ok.1 ok
    exact ⟨vs, ok⟩
  · rintro ⟨vs, ok⟩
    exact ⟨vs.map d.node, sort_eq_ok.2 ⟨vs, ok, rfl⟩⟩

theorem isAcyclic_iff (c : d.graph.Coherent) : d.isAcyclic = true ↔ d.graph.Acyclic := by
  rw [← c.order_iff_acyclic, isAcyclic]
  cases d.graph.order with
  | ok vs => exact iff_of_true rfl ⟨vs, rfl⟩
  | error left => exact iff_of_false nofun fun ⟨vs, ok⟩ => nomatch ok

theorem requireAcyclic_iff (c : d.graph.Coherent) :
    d.requireAcyclic = .ok () ↔ d.graph.Acyclic := by
  rw [← isAcyclic_iff c, requireAcyclic]
  split
  · exact iff_of_true rfl ‹_›
  · exact iff_of_false nofun ‹_›

theorem firstCycle_eq_nil_iff (d : Dependencies α) : d.firstCycle = [] ↔ d.graph.Acyclic := by
  rw [← d.graph.firstCycle?_eq_none_iff, firstCycle, List.map_eq_nil_iff]
  cases found : d.graph.firstCycle? d.graph.vertices with
  | none => exact iff_of_true rfl rfl
  | some c => exact iff_of_false (Digraph.isCycle_of_firstCycle? found).ne_nil nofun

theorem allCycles_eq_nil_iff (d : Dependencies α) : d.allCycles = [] ↔ d.graph.Acyclic := by
  rw [← d.graph.cycles_eq_nil_iff false, allCycles, List.map_eq_nil_iff]

end Answers

variable [Identified α] {cs : List (Change α)} {order other : List (Node α)} {vs : List Nat}

/-- Every name once, with the value stored last, and every edge leading forward. -/
structure Sorts (cs : List (Change α)) (order : List (Node α)) : Prop where
  arranges : Digraph.Arranges (firstSeen cs) (Linked cs) (order.map Node.id)
  current : ∀ n ∈ order, n.value? = lastStored cs n.id

def positions (cs : List (Change α)) (order : List (Node α)) : List Nat :=
  order.map fun n => (firstSeen cs).idxOf n.id

section Positions

theorem position_build (cs : List (Change α)) (name : String) :
    (build cs).graph.position name = (firstSeen cs).idxOf name := by
  rw [← ids_build, ids, Digraph.position]

theorem positions_eq (cs : List (Change α)) (order : List (Node α)) :
    positions cs order = (order.map Node.id).map (build cs).graph.position := by
  rw [positions, List.map_map]
  exact List.map_congr_left fun n _ => (position_build cs n.id).symm

theorem linear_positions_iff : (build cs).graph.Linear (positions cs order) ↔
    Digraph.Arranges (firstSeen cs) (Linked cs) (order.map Node.id) := by
  rw [positions_eq, (coherent_build cs).linear_iff, joins_build_eq, ← ids_build, ids]

theorem positions_node (known : ∀ v ∈ vs, v < (build cs).graph.size) :
    positions cs (vs.map (build cs).node) = vs := by
  rw [positions_eq, List.map_map, List.map_map]
  refine (List.map_congr_left fun v mem => ?_).trans (List.map_id vs)
  exact (coherent_build cs).position_name (known v mem)

end Positions

section Sorts

theorem sorts_node (linear : (build cs).graph.Linear vs) : Sorts cs (vs.map (build cs).node) := by
  constructor
  · rw [← linear_positions_iff, positions_node fun v => (linear.mem_iff v).1]
    exact linear
  · intro n mem
    obtain ⟨v, -, rfl⟩ := List.mem_map.1 mem
    exact value?_build cs _

theorem Sorts.map_node (h : Sorts cs order) :
    (positions cs order).map (build cs).node = order := by
  rw [positions_eq, List.map_map, List.map_map]
  refine (List.map_congr_left fun n mem => ?_).trans (List.map_id order)
  have known : n.id ∈ (build cs).graph.names.toList := by
    rw [← ids, ids_build, ← h.arranges.mem_iff]
    exact List.mem_map_of_mem mem
  have named := (coherent_build cs).name_position known
  rw [Function.comp_apply, Function.comp_apply, node, named, value?_build, ← h.current n mem]
  rfl

theorem sorts_of_sort (ok : (build cs).sort = .ok order) : Sorts cs order := by
  obtain ⟨vs, taken, rfl⟩ := sort_eq_ok.1 ok
  exact sorts_node ((coherent_build cs).linear_of_order taken)

theorem sort_least (ok : (build cs).sort = .ok order) (h : Sorts cs other) :
    order = other ∨ List.Lex (· < ·) (positions cs order) (positions cs other) := by
  obtain ⟨vs, taken, rfl⟩ := sort_eq_ok.1 ok
  have coherent := coherent_build cs
  have linear := coherent.linear_of_order taken
  rw [positions_node fun v => (linear.mem_iff v).1]
  refine (coherent.order_least taken (linear_positions_iff.2 h.arranges)).imp_left fun same => ?_
  rw [same, h.map_node]

theorem ids_sort_congr {cs' : List (Change α)} (names : firstSeen cs' = firstSeen cs)
    (links : ∀ source target, Linked cs' source target ↔ Linked cs source target) :
    (build cs').sort.toOption.map (·.map Node.id) =
      (build cs).sort.toOption.map (·.map Node.id) := by
  have names : (build cs').graph.names.toList = (build cs).graph.names.toList := by
    rw [← ids, ← ids, ids_build, ids_build, names]
  have linear := (coherent_build cs').linear_congr (coherent_build cs) names fun source target => by
    rw [joins_build, joins_build, links]
  rw [ids_sort, ids_sort, (coherent_build cs').order_congr (coherent_build cs) linear,
    Digraph.name_congr names]

end Sorts

/-- A sort is the order that keeps closest to the order of first mention, of all in which every
edge leads forward. It depends on the edges and on the order of first mention only. -/
theorem sort_canonical (cs : List (Change α)) :
    (∀ order, (build cs).sort = .ok order → Sorts cs order ∧
      ∀ other, Sorts cs other →
        order = other ∨ List.Lex (· < ·) (positions cs order) (positions cs other)) ∧
    ∀ cs' : List (Change α), firstSeen cs' = firstSeen cs →
      (∀ source target, Linked cs' source target ↔ Linked cs source target) →
      (build cs').sort.toOption.map (·.map Node.id) =
        (build cs).sort.toOption.map (·.map Node.id) :=
  ⟨fun _ ok => ⟨sorts_of_sort ok, fun _ => sort_least ok⟩, fun _ => ids_sort_congr⟩

def diamond : List (Change String) :=
  [.insert "c", .insert "d", .connect "c" "b", .connect "b" "a", .connect "c" "d", .connect "d" "a"]

def diamondAgain : List (Change String) :=
  [.insert "c", .connect "c" "d", .connect "c" "b", .connect "d" "a", .connect "b" "a",
    .connect "d" "d", .connect "c" "b"]

theorem diamond_sorts :
    Sorts diamond [⟨"c", some "c"⟩, ⟨"d", some "d"⟩, ⟨"b", none⟩, ⟨"a", none⟩] ∧
    (build diamondAgain).sort.toOption.map (·.map Node.id) =
      (build diamond).sort.toOption.map (·.map Node.id) := by
  have canonical := sort_canonical diamond
  refine ⟨(canonical.1 _ rfl).1, canonical.2 diamondAgain (by decide) fun source target => ?_⟩
  simp only [Linked, diamond, diamondAgain, List.mem_cons, List.not_mem_nil, reduceCtorEq,
    Change.connect.injEq, false_or, or_false]
  grind

section Acyclic

theorem linked_acyclic_iff (cs : List (Change α)) :
    (∀ id, ¬ Relation.TransGen (Linked cs) id id) ↔ (build cs).graph.Acyclic := by
  rw [(coherent_build cs).acyclic_iff, joins_build_eq]

/-- Whether there is a cycle is a question with one answer. -/
theorem acyclic_tfae (cs : List (Change α)) :
    [∀ id, ¬ Relation.TransGen (Linked cs) id id,
      ∃ order, (build cs).sort = .ok order,
      (build cs).isAcyclic = true,
      (build cs).requireAcyclic = .ok (),
      (build cs).firstCycle = [],
      (build cs).allCycles = []].TFAE ∧
    ((build cs).requireAcyclic = .ok () ∨ (build cs).requireAcyclic = .error .notADag) := by
  have coherent := coherent_build cs
  constructor
  · refine List.tfae_of_forall (build cs).graph.Acyclic _ ?_
    simp only [List.forall_mem_cons]
    exact ⟨linked_acyclic_iff cs, sort_ok_iff coherent, isAcyclic_iff coherent,
      requireAcyclic_iff coherent, firstCycle_eq_nil_iff _, allCycles_eq_nil_iff _, nofun⟩
  · rw [requireAcyclic]
    split
    · exact .inl rfl
    · exact .inr rfl

end Acyclic

end Dependencies

end Arbiter
