import Arbiter.Dependencies
import Arbiter.Proofs.Digraph.Names
import Arbiter.Proofs.Interner.History

namespace Arbiter

universe u

open Identified

inductive Change (α : Type u) where
  | insert (x : α)
  | connect (source target : String)

variable {α : Type u}

namespace Dependencies

variable {cs : List (Change α)} {c : Change α} {source target : String}

def Linked (cs : List (Change α)) (source target : String) : Prop :=
  source ≠ target ∧ .connect source target ∈ cs

theorem linked_append : Linked (cs ++ [c]) source target ↔
    Linked cs source target ∨ source ≠ target ∧ c = .connect source target := by
  rw [Linked, List.mem_append, List.mem_singleton, and_or_left, @eq_comm _ c]
  exact Iff.rfl

end Dependencies

variable [Identified α]

namespace Change

def mentions : Change α → List String
  | .insert x => [identity x]
  | .connect source target => if source = target then [] else [source, target]

def stores? (id : String) : Change α → Option α
  | .insert x => if identity x = id then some x else none
  | .connect _ _ => none

end Change

namespace Dependencies

def apply (d : Dependencies α) : Change α → Dependencies α
  | .insert x => d.insert x
  | .connect source target =>
    match d.connect source target with
    | .ok d => d
    | .error _ => d

def build (cs : List (Change α)) : Dependencies α := cs.foldl apply ∅

def firstSeen (cs : List (Change α)) : List String := (cs.flatMap Change.mentions).eraseDups

def lastStored (cs : List (Change α)) (id : String) : Option α :=
  cs.reverse.findSome? (Change.stores? id)

variable {cs : List (Change α)} {source target : String}

section Apply

theorem apply_loop (d : Dependencies α) (id : String) : d.apply (.connect id id) = d := by
  rw [apply, connect, if_pos rfl]

theorem apply_connect (d : Dependencies α) (ne : source ≠ target) :
    d.apply (.connect source target) = { d with graph := d.graph.addEdge source target } := by
  rw [apply, connect, if_neg ne]

theorem build_append (cs : List (Change α)) (c : Change α) :
    build (cs ++ [c]) = (build cs).apply c := List.foldl_concat ..

theorem build_induction {P : Dependencies α → Prop} (empty : P ∅)
    (insert : ∀ d x, P d → P (d.insert x))
    (connect : ∀ d source target, source ≠ target → P d →
      P { d with graph := d.graph.addEdge source target })
    (cs : List (Change α)) : P (build cs) := by
  induction cs using List.reverseRecOn with
  | nil => exact empty
  | append_singleton cs c ih =>
    rw [build_append]
    cases c with
    | insert x => exact insert _ x ih
    | connect source target =>
      by_cases same : source = target
      · rw [same, apply_loop]
        exact ih
      · rw [apply_connect _ same]
        exact connect _ source target same ih

end Apply

section Names

theorem coherent_build (cs : List (Change α)) : (build cs).graph.Coherent :=
  build_induction (P := fun d => d.graph.Coherent) Digraph.coherent_empty
    (fun _ x h => h.mention (identity x)) (fun _ source target _ h => h.addEdge source target) cs

theorem names_build (cs : List (Change α)) :
    (build cs).graph.names = .ofList (cs.flatMap Change.mentions) := by
  induction cs using List.reverseRecOn with
  | nil => rfl
  | append_singleton cs c ih =>
    rw [build_append, List.flatMap_append, List.flatMap_singleton, Interner.ofList_append, ← ih]
    cases c with
    | insert x => rfl
    | connect source target =>
      by_cases same : source = target
      · rw [same, apply_loop, Change.mentions, if_pos rfl]
        rfl
      · rw [apply_connect _ same, Digraph.names_addEdge, Change.mentions, if_neg same]
        rfl

theorem ids_build (cs : List (Change α)) : (build cs).ids = firstSeen cs := by
  rw [ids, names_build]
  exact Interner.toList_ofList _

end Names

section Edges

theorem joins_build (cs : List (Change α)) :
    (build cs).graph.Joins source target ↔ Linked cs source target := by
  induction cs using List.reverseRecOn with
  | nil =>
    refine iff_of_false ?_ fun linked => List.not_mem_nil linked.2
    rintro ⟨u, v, -, -, edge⟩
    exact absurd edge.lt (Nat.not_lt_zero u)
  | append_singleton cs c ih =>
    have coherent := coherent_build cs
    rw [build_append, linked_append, ← ih]
    cases c with
    | insert x =>
      rw [or_iff_left fun h => nomatch h.2]
      exact coherent.joins_mention (identity x)
    | connect a b =>
      by_cases same : a = b
      · rw [same, apply_loop, or_iff_left]
        rintro ⟨ne, is⟩
        cases is
        exact ne rfl
      · rw [apply_connect _ same, coherent.joins_addEdge, Change.connect.injEq]
        refine or_congr_right ⟨?_, ?_⟩
        · rintro ⟨rfl, rfl⟩
          exact ⟨same, rfl, rfl⟩
        · rintro ⟨-, rfl, rfl⟩
          exact ⟨rfl, rfl⟩

theorem joins_build_eq (cs : List (Change α)) : (build cs).graph.Joins = Linked cs := by
  funext source target
  exact propext (joins_build cs)

end Edges

theorem value?_build (cs : List (Change α)) (id : String) :
    (build cs).value? id = lastStored cs id := by
  induction cs using List.reverseRecOn with
  | nil => exact Std.TreeMap.getElem?_emptyc
  | append_singleton cs c ih =>
    rw [build_append, lastStored, List.reverse_concat, List.findSome?_cons, ← lastStored, ← ih]
    cases c with
    | insert x =>
      rw [Change.stores?, apply, value?, insert, Std.TreeMap.getElem?_insert]
      simp only [Std.LawfulEqCmp.compare_eq_iff_eq]
      split <;> rfl
    | connect source target =>
      by_cases same : source = target
      · rw [same, apply_loop]
        rfl
      · rw [apply_connect _ same]
        rfl

end Dependencies

end Arbiter
