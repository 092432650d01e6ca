import Arbiter.Proofs.Dependencies.History
import Arbiter.Proofs.Digraph.Growth
import Mathlib.Data.Finset.Dedup

namespace Arbiter

universe u

open Identified

inductive Edit (α : Type u) where
  | insert (x : α)
  | insertAll (xs : List α)
  | connect (source target : String)
  | connectValues (source target : α)

variable {α : Type u}

def Change.edge? : Change α → Option (String × String)
  | .insert _ => none
  | .connect source target => if source = target then none else some (source, target)

namespace Dependencies

section Accepted

variable {d : Dependencies α} {cs : List (Change α)} {source target : String} {error : GraphError}

theorem connect_eq_error : d.connect source target = .error error ↔
    ∃ id, (if source = target then some source else none) = some id ∧ error = .selfLoop id := by
  rw [connect]
  split
  · rw [Except.error.injEq]
    simp [eq_comm]
  · simp

def accepted (cs : List (Change α)) : List (String × String) := cs.filterMap Change.edge?

def destinations (cs : List (Change α)) (id : String) : List String :=
  ((accepted cs).filter (·.1 = id)).map Prod.snd

theorem accepted_append (cs : List (Change α)) (c : Change α) :
    accepted (cs ++ [c]) = accepted cs ++ c.edge?.toList := by
  rw [accepted, List.filterMap_append, ← accepted, List.filterMap_cons, List.filterMap_nil]
  cases c.edge? <;> rfl

theorem accepted_loop (cs : List (Change α)) (id : String) :
    accepted (cs ++ [.connect id id]) = accepted cs := by
  rw [accepted_append, Change.edge?, if_pos rfl, Option.toList_none, List.append_nil]

theorem accepted_connect (cs : List (Change α)) (ne : source ≠ target) :
    accepted (cs ++ [.connect source target]) = accepted cs ++ [(source, target)] := by
  rw [accepted_append, Change.edge?, if_neg ne, Option.toList_some]

theorem mem_accepted : (source, target) ∈ accepted cs ↔ Linked cs source target := by
  rw [accepted, List.mem_filterMap, Linked]
  constructor
  · rintro ⟨c, mem, is⟩
    cases c with
    | insert x => cases is
    | connect a b =>
      rw [Change.edge?] at is
      split at is
      · cases is
      · cases is
        exact ⟨‹_›, mem⟩
  · rintro ⟨ne, mem⟩
    exact ⟨_, mem, if_neg ne⟩

theorem mem_destinations : target ∈ destinations cs source ↔ Linked cs source target := by
  rw [← mem_accepted, destinations, List.mem_map]
  constructor
  · rintro ⟨⟨a, b⟩, mem, rfl⟩
    rw [List.mem_filter, decide_eq_true_eq] at mem
    obtain ⟨mem, rfl⟩ := mem
    exact mem
  · intro mem
    exact ⟨_, List.mem_filter.2 ⟨mem, decide_eq_true rfl⟩, rfl⟩

theorem destinations_connect (cs : List (Change α)) (ne : source ≠ target) (id : String) :
    destinations (cs ++ [.connect source target]) id =
      if source = id then destinations cs id ++ [target] else destinations cs id := by
  rw [destinations, accepted_connect cs ne, List.filter_append, List.map_append, ← destinations]
  by_cases same : source = id <;> simp [same]

end Accepted

end Dependencies

variable [Identified α]

namespace Edit

def changes : Edit α → List (Change α)
  | .insert x => [.insert x]
  | .insertAll xs => xs.map .insert
  | .connect source target => [.connect source target]
  | .connectValues x y => [.connect (identity x) (identity y)]

def loop? : Edit α → Option String
  | .insert _ => none
  | .insertAll _ => none
  | .connect source target => if source = target then some source else none
  | .connectValues x y => if identity x = identity y then some (identity x) else none

end Edit

def Change.growths : Change α → List Digraph.Growth
  | .insert x => [.mention (identity x)]
  | .connect source target => if source = target then [] else [.join source target]

namespace Dependencies

def perform (d : Dependencies α) : Edit α → Except GraphError (Dependencies α)
  | .insert x => .ok (d.insert x)
  | .insertAll xs => .ok (d.insertAll xs)
  | .connect source target => d.connect source target
  | .connectValues x y => d.connectValues x y

def edit (d : Dependencies α) (e : Edit α) : Dependencies α := (d.perform e).toOption.getD d

def record (log : List (Edit α)) : Dependencies α := log.foldl edit ∅

def tracked (log : List (Edit α)) : Digraph.Tracked :=
  .grow ((log.flatMap Edit.changes).flatMap Change.growths)

structure Answers (cs : List (Change α)) (d : Dependencies α) : Prop where
  ids : d.ids = firstSeen cs
  value? : ∀ id, d.value? id = lastStored cs id
  contains : ∀ id, d.contains id = true ↔ id ∈ d.ids
  successors : ∀ id, d.successors id = (destinations cs id).eraseDups
  size : d.size = (cs.flatMap Change.mentions).toFinset.card
  edgeCount : d.edgeCount = (accepted cs).toFinset.card

section Record

variable {d : Dependencies α} {e : Edit α}

theorem edit_eq (d : Dependencies α) (e : Edit α) : d.edit e = e.changes.foldl apply d := by
  cases e with
  | insert x => rfl
  | insertAll xs =>
    rw [Edit.changes, List.foldl_map]
    rfl
  | connect source target =>
    rw [edit, perform, Edit.changes, List.foldl_cons, List.foldl_nil, apply]
    cases d.connect source target <;> rfl
  | connectValues x y =>
    rw [edit, perform, connectValues, Edit.changes, List.foldl_cons, List.foldl_nil, apply]
    cases d.connect (identity x) (identity y) <;> rfl

theorem record_eq (log : List (Edit α)) : record log = build (log.flatMap Edit.changes) := by
  rw [record, build, List.foldl_flatMap]
  exact congrArg (List.foldl · ∅ log) (funext fun d => funext d.edit_eq)

theorem perform_eq_error (d : Dependencies α) (e : Edit α) (error : GraphError) :
    d.perform e = .error error ↔ ∃ id, e.loop? = some id ∧ error = .selfLoop id := by
  cases e with
  | insert x => simp [perform, Edit.loop?]
  | insertAll xs => simp [perform, Edit.loop?]
  | connect source target => exact connect_eq_error
  | connectValues x y => exact connect_eq_error

theorem edit_of_loop {id : String} (h : e.loop? = some id) (d : Dependencies α) :
    d.edit e = d := by
  rw [edit, (d.perform_eq_error e (.selfLoop id)).2 ⟨id, h, rfl⟩]
  rfl

theorem record_filter (log : List (Edit α)) :
    record (log.filter (·.loop?.isNone)) = record log := by
  rw [record, record, List.foldl_filter]
  refine congrArg (List.foldl · ∅ log) (funext fun d => funext fun e => ?_)
  cases h : e.loop? with
  | none => rfl
  | some id => exact (edit_of_loop h d).symm

end Record

section Build

variable {cs : List (Change α)}

theorem successors_build (cs : List (Change α)) (id : String) :
    (build cs).successors id = (destinations cs id).eraseDups := by
  show (build cs).graph.targets id = _
  induction cs using List.reverseRecOn with
  | nil => rfl
  | append_singleton cs c ih =>
    have coherent := coherent_build cs
    rw [build_append]
    cases c with
    | insert x =>
      rw [destinations, accepted_append, Change.edge?, Option.toList_none, List.append_nil]
      exact (coherent.targets_mention (identity x) id).trans ih
    | connect source target =>
      by_cases same : source = target
      · rw [same, apply_loop, destinations, accepted_loop]
        exact ih
      · have known : target ∈ (destinations cs source).eraseDups ↔
            (build cs).graph.Joins source target := by
          rw [List.mem_eraseDups, mem_destinations, joins_build]
        rw [apply_connect _ same, destinations_connect cs same]
        have both := coherent.targets_mentionBoth source target
        have joined := coherent.joined source target
        dsimp only
        generalize (build cs).graph.addEdge source target = g at joined
        cases joined with
        | known joins =>
          rw [both, ih]
          split
          · subst id
            rw [eraseDups_concat, if_pos (known.2 joins)]
          · rfl
        | added new u v hu hv =>
          rw [(coherent.mentionBoth source target).targets_append hu hv, both, ih]
          split
          · subst id
            rw [eraseDups_concat, if_neg (mt known.1 new)]
          · rfl

theorem edgeCount_build (cs : List (Change α)) :
    (build cs).edgeCount = (accepted cs).toFinset.card := by
  induction cs using List.reverseRecOn with
  | nil => rfl
  | append_singleton cs c ih =>
    have coherent := coherent_build cs
    rw [edgeCount] at ih ⊢
    rw [build_append]
    cases c with
    | insert x =>
      rw [accepted_append, Change.edge?, Option.toList_none, List.append_nil]
      exact (Digraph.edgeCount_mention _ _).trans ih
    | connect source target =>
      by_cases same : source = target
      · rw [same, apply_loop, accepted_loop]
        exact ih
      · have known : (source, target) ∈ (accepted cs).toFinset ↔
            (build cs).graph.Joins source target := by
          rw [List.mem_toFinset, mem_accepted, joins_build]
        rw [apply_connect _ same, accepted_connect cs same, List.toFinset_append, Finset.union_comm]
        have both := Digraph.edgeCount_mentionBoth (build cs).graph source target
        have joined := coherent.joined source target
        dsimp only
        generalize (build cs).graph.addEdge source target = g at joined
        cases joined with
        | known joins =>
          rw [both, ih]
          exact congrArg Finset.card (Finset.insert_eq_of_mem (known.2 joins)).symm
        | added new u v hu hv =>
          have lt : u < ((build cs).graph.mentionBoth source target).size := by
            rw [(coherent.mentionBoth source target).size]
            exact Interner.lt_of_name? hu
          rw [Digraph.edgeCount_append lt, both, ih]
          exact (Finset.card_insert_of_notMem (mt known.1 new)).symm

theorem size_build (cs : List (Change α)) :
    (build cs).size = (cs.flatMap Change.mentions).toFinset.card := by
  have coherent := coherent_build cs
  have names : (build cs).graph.names.toList = firstSeen cs := ids_build cs
  rw [size, coherent.size, Interner.size_eq, ← List.toFinset_card_of_nodup coherent.names.nodup,
    names]
  refine congrArg Finset.card (Finset.ext fun name => ?_)
  rw [List.mem_toFinset, List.mem_toFinset, firstSeen, List.mem_eraseDups]

theorem mem_firstSeen_of_stored {x : α} {id : String} (h : lastStored cs id = some x) :
    id ∈ firstSeen cs := by
  obtain ⟨c, mem, is⟩ := List.exists_of_findSome?_eq_some h
  rw [List.mem_reverse] at mem
  rw [firstSeen, List.mem_eraseDups, List.mem_flatMap]
  cases c with
  | insert y =>
    rw [Change.stores?] at is
    split at is
    · exact ⟨_, mem, List.mem_singleton.2 (Eq.symm ‹_›)⟩
    · cases is
  | connect a b => cases is

theorem contains_build (cs : List (Change α)) (id : String) :
    (build cs).contains id = true ↔ id ∈ (build cs).ids := by
  have named : ((build cs).graph.vertex? id).isSome = true ↔ id ∈ (build cs).ids := by
    rw [Option.isSome_iff_ne_none, Digraph.vertex?, Ne, (coherent_build cs).names.handle?_eq_none,
      not_not, ids]
  rw [contains, Bool.or_eq_true, named, or_iff_right_of_imp]
  rw [Std.TreeMap.contains_eq_isSome_getElem?, Option.isSome_iff_exists, ids_build]
  rintro ⟨x, stored⟩
  exact mem_firstSeen_of_stored ((value?_build cs id).symm.trans stored)

theorem answers_build (cs : List (Change α)) : Answers cs (build cs) :=
  ⟨ids_build cs, value?_build cs, contains_build cs, successors_build cs, size_build cs,
    edgeCount_build cs⟩

theorem graph_build (cs : List (Change α)) :
    (build cs).graph = Digraph.grow (cs.flatMap Change.growths) := by
  induction cs using List.reverseRecOn with
  | nil => rfl
  | append_singleton cs c ih =>
    rw [build_append, List.flatMap_append, List.flatMap_singleton]
    cases c with
    | insert x =>
      rw [Change.growths, Digraph.grow_append, ← ih]
      rfl
    | connect source target =>
      by_cases same : source = target
      · rw [same, apply_loop, Change.growths, if_pos rfl, List.append_nil]
        exact ih
      · rw [apply_connect _ same, Change.growths, if_neg same, Digraph.grow_append, ← ih]
        rfl

theorem agrees_tracked (log : List (Edit α)) : (tracked log).Agrees :=
  (Digraph.Tracked.agrees_grow _).1

theorem graph_tracked (log : List (Edit α)) : (tracked log).graph = (record log).graph := by
  rw [record_eq, graph_build]
  exact (Digraph.Tracked.agrees_grow _).2

end Build

/-- All that a graph answers follows from the log of its calls. A call is refused just where it
would put an edge from a name to itself, and leaves nothing of itself in any answer. To keep the
edges in a set besides would make no difference. -/
theorem record_answers (log : List (Edit α)) :
    Answers (log.flatMap Edit.changes) (record log) ∧
    (∀ (d : Dependencies α) e error,
      d.perform e = .error error ↔ ∃ id, e.loop? = some id ∧ error = .selfLoop id) ∧
    record (log.filter (·.loop?.isNone)) = record log ∧
    (tracked log).graph = (record log).graph ∧
    (tracked log).pairs.card = (record log).edgeCount := by
  refine ⟨?_, perform_eq_error, record_filter log, graph_tracked log, ?_⟩
  · rw [record_eq]
    exact answers_build _
  · rw [(agrees_tracked log).card, graph_tracked]
    rfl

example : let d := record [.connect "loop" "loop", .connect "b" "a", .insertAll ["c", "a"],
      .connectValues "b" "c", .connect "b" "a"]
    d.ids = ["b", "a", "c"] ∧ d.successors "b" = ["a", "c"] ∧ d.value? "a" = some "a" ∧
      d.value? "b" = none ∧ d.edgeCount = 2 := by
  decide

end Dependencies

end Arbiter
