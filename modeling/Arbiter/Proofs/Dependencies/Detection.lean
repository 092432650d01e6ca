import Arbiter.Proofs.Dependencies.Cycles
import Arbiter.Proofs.Dependencies.Sorting
import Arbiter.Proofs.Digraph.Leftover

namespace Arbiter

universe u

/-- A path along links that ends where it begins and meets no other entry twice. -/
structure Loop {β : Type u} (linked : β → β → Prop) (path : List β) : Prop where
  three_le : 3 ≤ path.length
  closed : path.head? = path.getLast?
  nodup : path.dropLast.Nodup
  chain : path.IsChain linked

theorem Circuit.loop {β : Type u} {linked : β → β → Prop} {c : List β} (h : Circuit linked c)
    (nodup : c.Nodup) (long : 2 ≤ c.length) : Loop linked (c ++ c.head?.toList) := by
  obtain ⟨x, xs, rfl⟩ := List.exists_cons_of_ne_nil h.ne_nil
  refine ⟨?_, ?_, ?_, h.chain⟩
  · rw [List.length_append]
    exact Nat.succ_le_succ long
  · exact List.getLast?_concat.symm
  · rwa [List.head?_cons, Option.toList_some, List.dropLast_concat]

namespace Dependencies

variable {α : Type u}

section Reports

theorem sort_eq_error {d : Dependencies α} {error : GraphError} : d.sort = .error error ↔
    ∃ left, d.graph.order = .error left ∧
      .cycleDetected (((d.graph.closedCycle? left).getD []).map d.graph.name) = error := by
  rw [sort]
  cases d.graph.order with
  | ok vs => simp
  | error left => simp

theorem loop_of_order [Identified α] {cs : List (Change α)} {left : List Nat}
    (h : (build cs).graph.order = .error left) :
    ∃ path, (build cs).sort = .error (.cycleDetected path) ∧ Loop (Linked cs) path := by
  have coherent := coherent_build cs
  obtain ⟨vs, cycle, closed⟩ := coherent.closedCycle?_leftover h
  have proper (name : String) : ¬ (build cs).graph.Joins name name :=
    fun joins => ((joins_build cs).1 joins).1 rfl
  obtain ⟨circuit, nodup, long⟩ := coherent.simple_names proper cycle
  refine ⟨_, sort_eq_error.2 ⟨left, h, rfl⟩, ?_⟩
  rw [closed, Option.getD_some, List.map_append, ← Option.toList_map, ← List.head?_map,
    ← joins_build_eq]
  exact circuit.loop nodup long

end Reports

/-- Where the names cannot be put in order, for the edges go round in a cycle, the sort reports such
a cycle: the search from the vertices that were left over never comes back with nothing. -/
theorem sort_reports_loop [Identified α] (cs : List (Change α)) :
    ((∃ id, Relation.TransGen (Linked cs) id id) ↔
      ∃ path, (build cs).sort = .error (.cycleDetected path) ∧ Loop (Linked cs) path) ∧
    ∀ left, (build cs).graph.order = .error left →
      ∃ vs, (build cs).graph.closedCycle? left = some vs := by
  have coherent := coherent_build cs
  refine ⟨?_, fun left h => ?_⟩
  · rw [← not_forall_not, linked_acyclic_iff, ← sort_ok_iff coherent]
    constructor
    · intro unsorted
      cases h : (build cs).graph.order with
      | ok vs => exact absurd ⟨_, sort_eq_ok.2 ⟨vs, h, rfl⟩⟩ unsorted
      | error left => exact loop_of_order h
    · rintro ⟨path, error, -⟩ ⟨order, ok⟩
      cases ok.symm.trans error
  · obtain ⟨vs, -, closed⟩ := coherent.closedCycle?_leftover h
    exact ⟨_, closed⟩

def downstream : List (Change String) :=
  [.connect "c" "d", .connect "b" "c", .connect "a" "b", .connect "b" "a"]

theorem downstream_loops :
    (build downstream).graph.order = .error [0, 1, 2, 3] ∧
    (build downstream).sort = .error (.cycleDetected ["b", "a", "b"]) ∧
    Loop (Linked downstream) ["b", "a", "b"] := by
  have sorted : (build downstream).sort = .error (.cycleDetected ["b", "a", "b"]) := by rfl
  have there : Linked downstream "a" "b" := by simp [Linked, downstream]
  have back : Linked downstream "b" "a" := by simp [Linked, downstream]
  obtain ⟨path, error, loop⟩ := (sort_reports_loop downstream).1.1 ⟨"a", .tail (.single there) back⟩
  cases sorted.symm.trans error
  exact ⟨by rfl, sorted, loop⟩

end Dependencies

end Arbiter
