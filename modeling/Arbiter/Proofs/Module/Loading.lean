import Arbiter.Proofs.Dependencies.Sorting
import Arbiter.Proofs.Module.History

/-!
The load order of a registry. Where no import is at fault the registry is the history of a graph in
which every import comes before its importer, and its load order is the sort of that graph.
-/

namespace Arbiter

universe u v w

theorem foldlM_of_check {β : Type u} {γ : Type v} {ε : Type w} {f : γ → β → Except ε γ}
    {check : β → Option ε} {g : γ → β → γ}
    (step : ∀ c x, f c x = (check x).elim (.ok (g c x)) .error) (xs : List β) (c : γ) :
    xs.foldlM f c = (xs.findSome? check).elim (.ok (xs.foldl g c)) .error := by
  induction xs generalizing c with
  | nil => rfl
  | cons x xs ih =>
    rw [List.foldlM_cons, step, List.findSome?_cons]
    cases check x with
    | none => exact ih (g c x)
    | some e => rfl

def Module.node (m : Module) : Node Module := ⟨m.name, some m⟩

namespace Registry

open Dependencies (firstSeen lastStored Linked)

def fault? (r : Registry) (m : Module) (imported : String) : Option ImportError :=
  if r.contains imported then
    if imported = m.name then some (.graph (.selfLoop imported)) else none
  else some (.missing m.name imported)

def firstFault? (r : Registry) : Option ImportError :=
  r.toList.findSome? fun m => m.imports.findSome? (r.fault? m)

def edges (r : Registry) : List (Change Module) :=
  r.toList.flatMap fun m => m.imports.map (.connect · m.name)

def changes (r : Registry) : List (Change Module) := r.toList.map .insert ++ r.edges

section Graph

variable {r : Registry} {m : Module} {imported source target name : String}

theorem connectImport_eq (r : Registry) (m : Module) (d : Dependencies Module)
    (imported : String) : r.connectImport m d imported =
      (r.fault? m imported).elim (.ok (d.apply (.connect imported m.name))) .error := by
  rw [connectImport, fault?]
  split
  · rw [Dependencies.connect]
    split
    · rfl
    · rw [Dependencies.apply_connect d ‹_›]
      rfl
  · rfl

theorem build_changes (r : Registry) : Dependencies.build r.changes =
    r.toList.foldl (fun d m => m.imports.foldl (fun d i => d.apply (.connect i m.name)) d)
      (.ofList r.toList) := by
  rw [Dependencies.build, changes, edges, List.foldl_append, List.foldl_map, List.foldl_flatMap]
  simp only [List.foldl_map]
  rfl

theorem dependencies_eq (r : Registry) :
    r.dependencies = r.firstFault?.elim (.ok (Dependencies.build r.changes)) .error := by
  rw [build_changes]
  exact foldlM_of_check (fun d m => foldlM_of_check (r.connectImport_eq m) m.imports d) r.toList _

theorem fault?_eq_none (c : r.names.Coherent) : r.fault? m imported = none ↔
    imported ∈ r.names.toList ∧ imported ≠ m.name := by
  rw [fault?, ← contains_iff c]
  split
  · split <;> simp [*]
  · simp [*]

theorem mem_edges {change : Change Module} : change ∈ r.edges ↔
    ∃ m ∈ r.toList, ∃ i ∈ m.imports, .connect i m.name = change := by
  simp only [edges, List.mem_flatMap, List.mem_map]

theorem linked_changes : Linked r.changes source target ↔
    source ≠ target ∧ ∃ m ∈ r.toList, m.name = target ∧ source ∈ m.imports := by
  rw [Linked, changes, List.mem_append, or_iff_right, mem_edges]
  · refine and_congr_right fun _ => exists_congr fun m => and_congr_right fun _ => ?_
    simp only [Change.connect.injEq]
    constructor
    · rintro ⟨i, mem, rfl, rfl⟩
      exact ⟨rfl, mem⟩
    · rintro ⟨rfl, mem⟩
      exact ⟨source, mem, rfl, rfl⟩
  · simp

theorem lastStored_changes (c : r.names.Coherent) (name : String) :
    lastStored r.changes name = r.get? name := by
  have stored : lastStored r.changes name =
      r.toList.reverse.findSome? fun m => Change.stores? name (.insert m) := by
    rw [lastStored, changes, List.reverse_append, List.findSome?_append,
      List.findSome?_eq_none_iff.2, Option.none_or, ← List.map_reverse, List.findSome?_map]
    · rfl
    · intro change mem
      obtain ⟨m, -, i, -, rfl⟩ := mem_edges.1 (List.mem_reverse.1 mem)
      rfl
  rw [stored]
  cases found : r.toList.reverse.findSome? fun m => Change.stores? name (.insert m) with
  | none =>
    rw [List.findSome?_eq_none_iff] at found
    symm
    rw [Option.eq_none_iff_forall_ne_some]
    intro m is
    obtain ⟨mem, named⟩ := (get?_eq_some_iff c).1 is
    have unstored := found m (List.mem_reverse.2 mem)
    rw [Change.stores?, show Identified.identity m = name from named, if_pos rfl] at unstored
    cases unstored
  | some m =>
    obtain ⟨m', mem, stored⟩ := List.exists_of_findSome?_eq_some found
    rw [Change.stores?] at stored
    split at stored
    · cases stored
      exact ((get?_eq_some_iff c).2 ⟨List.mem_reverse.1 mem, ‹_›⟩).symm
    · cases stored

theorem firstFault?_eq_none (c : r.names.Coherent) : r.firstFault? = none ↔
    ∀ m ∈ r.toList, ∀ i ∈ m.imports, i ∈ r.names.toList ∧ i ≠ m.name := by
  simp only [firstFault?, List.findSome?_eq_none_iff, fault?_eq_none c]

theorem firstSeen_changes (c : r.names.Coherent) (sound : r.firstFault? = none) :
    firstSeen r.changes = r.names.toList := by
  have inserted : (r.toList.map Change.insert).flatMap Change.mentions = r.names.toList := by
    rw [toList_names, List.flatMap_map, List.map_eq_flatMap]
    rfl
  rw [firstSeen, changes, List.flatMap_append, inserted]
  apply eraseDups_append_of_subset c.nodup
  intro name mem
  obtain ⟨change, mem, mentioned⟩ := List.mem_flatMap.1 mem
  obtain ⟨m, registered, i, imported, rfl⟩ := mem_edges.1 mem
  obtain ⟨known, ne⟩ := (firstFault?_eq_none c).1 sound m registered i imported
  rw [Change.mentions, if_neg ne, List.mem_pair] at mentioned
  rcases mentioned with rfl | rfl
  · exact known
  · exact mem_names_of_mem registered

end Graph

section Order

variable {r : Registry} {order : List Module} {nodes : List (Node Module)}

theorem node_injective : Function.Injective Module.node := by
  intro m other same
  exact Option.some.inj (congrArg Node.value? same)

theorem ids_node (order : List Module) : (order.map Module.node).map Node.id =
    order.map Module.name := List.map_map

theorem mapM_resolve (order : List Module) :
    (order.map Module.node).mapM Node.resolve = .ok order := by
  induction order with
  | nil => rfl
  | cons m order ih =>
    rw [List.map_cons, List.mapM_cons, ih]
    rfl

theorem exists_modules (c : r.names.Coherent) (sound : r.firstFault? = none)
    (sorts : Dependencies.Sorts r.changes nodes) :
    ∃ order : List Module, order.map Module.node = nodes := by
  have stands : ∀ n ∈ nodes, n ∈ Set.range Module.node := by
    intro n mem
    have known := (sorts.arranges.mem_iff n.id).1 (List.mem_map_of_mem mem)
    rw [firstSeen_changes c sound, toList_names] at known
    obtain ⟨m, registered, named⟩ := List.mem_map.1 known
    have value := sorts.current n mem
    rw [lastStored_changes c, (get?_eq_some_iff c).2 ⟨registered, named⟩] at value
    refine ⟨m, ?_⟩
    rw [Module.node, named, ← value]
  rwa [← Set.mem_range, Set.range_list_map]

theorem loadOrder_eq (r : Registry) : r.loadOrder = r.firstFault?.elim
    ((Dependencies.build r.changes).sortValues.mapError .graph) .error := by
  rw [loadOrder, dependencies_eq]
  cases r.firstFault? <;> rfl

theorem loadOrder_eq_ok (c : r.names.Coherent) : r.loadOrder = .ok order ↔
    r.firstFault? = none ∧
      (Dependencies.build r.changes).sort = .ok (order.map Module.node) := by
  rw [loadOrder_eq]
  cases sound : r.firstFault? with
  | some e => exact iff_of_false nofun fun h => nomatch h.1
  | none =>
    rw [and_iff_right rfl, Option.elim_none, Dependencies.sortValues]
    cases sorted : (Dependencies.build r.changes).sort with
    | error e => exact iff_of_false nofun nofun
    | ok nodes =>
      obtain ⟨order', rfl⟩ := exists_modules c sound (Dependencies.sorts_of_sort sorted)
      show ((order'.map Module.node).mapM Node.resolve).mapError _ = _ ↔ _
      rw [mapM_resolve, Except.ok.injEq, node_injective.list_map.eq_iff, Except.mapError,
        Except.ok.injEq]

end Order

variable {cs : List Registration} {order other : List Module} {imported name : String}

/-- Every registered name once, with the module it last got, and every module after those it
imports. -/
structure Loads (cs : List Registration) (order : List Module) : Prop where
  arranges : Digraph.Arranges (firstRegistered cs) (Imports cs) (order.map Module.name)
  latest : ∀ m ∈ order, lastRegistered cs m.name = some m

def positions (cs : List Registration) (order : List Module) : List Nat :=
  order.map fun m => (firstRegistered cs).idxOf m.name

section Loads

theorem imports_iff : Imports cs imported name ↔
    ∃ m ∈ (build cs).toList, m.name = name ∧ imported ∈ m.imports := by
  simp only [Imports, ← get?_build, get?_eq_some_iff (coherent_build cs), and_assoc]

theorem firstFault?_build : (build cs).firstFault? = none ↔
    ∀ imported name, Imports cs imported name →
      imported ∈ firstRegistered cs ∧ imported ≠ name := by
  rw [firstFault?_eq_none (coherent_build cs), names_build]
  simp only [imports_iff]
  constructor
  · rintro sound imported name ⟨m, registered, rfl, mem⟩
    exact sound m registered imported mem
  · exact fun sound m registered i mem => sound i m.name ⟨m, registered, rfl, mem⟩

theorem firstSeen_build (sound : (build cs).firstFault? = none) :
    firstSeen (build cs).changes = firstRegistered cs := by
  rw [firstSeen_changes (coherent_build cs) sound, names_build]

theorem linked_build (sound : (build cs).firstFault? = none) :
    Linked (build cs).changes = Imports cs := by
  funext imported name
  rw [eq_iff_iff, linked_changes, ← imports_iff, and_iff_right_iff_imp]
  exact fun imports => (firstFault?_build.1 sound imported name imports).2

theorem lastStored_build (cs : List Registration) (name : String) :
    lastStored (build cs).changes name = lastRegistered cs name := by
  rw [lastStored_changes (coherent_build cs), get?_build]

theorem sorts_node_iff (sound : (build cs).firstFault? = none) :
    Dependencies.Sorts (build cs).changes (order.map Module.node) ↔ Loads cs order := by
  have current : (∀ n ∈ order.map Module.node,
      n.value? = lastStored (build cs).changes n.id) ↔
      ∀ m ∈ order, lastRegistered cs m.name = some m := by
    simp only [List.forall_mem_map, lastStored_build, Module.node, @eq_comm _ (some _)]
  constructor
  · rintro ⟨arranges, h⟩
    rw [ids_node, firstSeen_build sound, linked_build sound] at arranges
    exact ⟨arranges, current.1 h⟩
  · rintro ⟨arranges, h⟩
    rw [← ids_node, ← firstSeen_build sound, ← linked_build sound] at arranges
    exact ⟨arranges, current.2 h⟩

theorem positions_node (sound : (build cs).firstFault? = none) (order : List Module) :
    Dependencies.positions (build cs).changes (order.map Module.node) = positions cs order := by
  rw [Dependencies.positions, firstSeen_build sound, List.map_map]
  rfl

theorem loads_of_loadOrder (ok : (build cs).loadOrder = .ok order) : Loads cs order := by
  obtain ⟨sound, sorted⟩ := (loadOrder_eq_ok (coherent_build cs)).1 ok
  exact (sorts_node_iff sound).1 (Dependencies.sorts_of_sort sorted)

theorem loadOrder_least (ok : (build cs).loadOrder = .ok order) (loads : Loads cs other) :
    order = other ∨ List.Lex (· < ·) (positions cs order) (positions cs other) := by
  obtain ⟨sound, sorted⟩ := (loadOrder_eq_ok (coherent_build cs)).1 ok
  rw [← positions_node sound, ← positions_node sound, ← node_injective.list_map.eq_iff]
  exact Dependencies.sort_least sorted ((sorts_node_iff sound).2 loads)

theorem loadOrder_ok_iff (cs : List Registration) : (∃ order, (build cs).loadOrder = .ok order) ↔
    (∀ imported name, Imports cs imported name → imported ∈ firstRegistered cs) ∧
    (∀ name, ¬ Imports cs name name) ∧
    ∀ name, ¬ Relation.TransGen (Imports cs) name name := by
  have coherent := coherent_build cs
  have ok_iff : (∃ order, (build cs).loadOrder = .ok order) ↔ (build cs).firstFault? = none ∧
      ∃ nodes, (Dependencies.build (build cs).changes).sort = .ok nodes := by
    simp only [loadOrder_eq_ok coherent, exists_and_left]
    refine and_congr_right fun sound => ⟨fun ⟨order, ok⟩ => ⟨_, ok⟩, fun ⟨nodes, ok⟩ => ?_⟩
    obtain ⟨order, rfl⟩ := exists_modules coherent sound (Dependencies.sorts_of_sort ok)
    exact ⟨order, ok⟩
  have sound_iff : (build cs).firstFault? = none ↔
      (∀ imported name, Imports cs imported name → imported ∈ firstRegistered cs) ∧
      ∀ name, ¬ Imports cs name name := by
    rw [firstFault?_build]
    constructor
    · exact fun sound => ⟨fun i n h => (sound i n h).1, fun n h => (sound n n h).2 rfl⟩
    · rintro ⟨known, proper⟩ i n h
      refine ⟨known i n h, ?_⟩
      rintro rfl
      exact proper i h
  rw [ok_iff, ← and_assoc, ← sound_iff]
  refine and_congr_right fun sound => ?_
  rw [Dependencies.sort_ok_iff (Dependencies.coherent_build _),
    ← Dependencies.linked_acyclic_iff, linked_build sound]

theorem names_loadOrder (sound : (build cs).firstFault? = none) :
    (build cs).loadOrder.toOption.map (·.map Module.name) =
      (Dependencies.build (build cs).changes).sort.toOption.map (·.map Node.id) := by
  have coherent := coherent_build cs
  cases sorted : (Dependencies.build (build cs).changes).sort with
  | ok nodes =>
    obtain ⟨order, rfl⟩ := exists_modules coherent sound (Dependencies.sorts_of_sort sorted)
    rw [(loadOrder_eq_ok coherent).2 ⟨sound, sorted⟩]
    exact congrArg some (ids_node order).symm
  | error e =>
    cases ok : (build cs).loadOrder with
    | ok order =>
      have sorted' := ((loadOrder_eq_ok coherent).1 ok).2
      rw [sorted] at sorted'
      cases sorted'
    | error e => rfl

theorem loadOrder_congr {cs' : List Registration} (names : firstRegistered cs' = firstRegistered cs)
    (imports : Imports cs' = Imports cs) :
    (build cs').loadOrder.toOption.map (·.map Module.name) =
      (build cs).loadOrder.toOption.map (·.map Module.name) := by
  have sound_iff : (build cs').firstFault? = none ↔ (build cs).firstFault? = none := by
    rw [firstFault?_build, firstFault?_build, names, imports]
  by_cases sound : (build cs).firstFault? = none
  · have sound' := sound_iff.2 sound
    rw [names_loadOrder sound, names_loadOrder sound']
    apply Dependencies.ids_sort_congr
    · rw [firstSeen_build sound, firstSeen_build sound', names]
    · intro source target
      rw [linked_build sound, linked_build sound', imports]
  · rw [loadOrder_eq, loadOrder_eq]
    obtain ⟨e, faulty⟩ := Option.ne_none_iff_exists'.1 sound
    obtain ⟨e', faulty'⟩ := Option.ne_none_iff_exists'.1 (mt sound_iff.1 sound)
    rw [faulty, faulty']
    rfl

end Loads

/-- There is a load order exactly where all imports are registered and do not go round. It has each
module as it was registered last, after all it imports, and of all such orders it keeps closest to
the order of first registration. -/
theorem loadOrder_canonical (cs : List Registration) :
    ((∃ order, (build cs).loadOrder = .ok order) ↔
      (∀ imported name, Imports cs imported name → imported ∈ firstRegistered cs) ∧
      (∀ name, ¬ Imports cs name name) ∧
      ∀ name, ¬ Relation.TransGen (Imports cs) name name) ∧
    (∀ order, (build cs).loadOrder = .ok order → Loads cs order ∧
      (∀ imported name, Relation.TransGen (Imports cs) imported name →
        (order.map Module.name).idxOf imported < (order.map Module.name).idxOf name) ∧
      ∀ other, Loads cs other →
        order = other ∨ List.Lex (· < ·) (positions cs order) (positions cs other)) ∧
    ∀ cs' : List Registration, firstRegistered cs' = firstRegistered cs →
      (∀ imported name, Imports cs' imported name ↔ Imports cs imported name) →
      (build cs').loadOrder.toOption.map (·.map Module.name) =
        (build cs).loadOrder.toOption.map (·.map Module.name) := by
  refine ⟨loadOrder_ok_iff cs, fun order ok => ?_, fun cs' names imports => ?_⟩
  · have loads := loads_of_loadOrder ok
    exact ⟨loads, fun _ _ => loads.arranges.before_trans, fun _ => loadOrder_least ok⟩
  · refine loadOrder_congr names ?_
    funext imported name
    exact propext (imports imported name)

def policies : List Registration :=
  [.insert ⟨"access", ["roles", "base", "roles"], "1"⟩,
    .extend [⟨"roles", ["access"], "1"⟩, ⟨"base", [], "1"⟩, ⟨"audit", [], "1"⟩],
    .insert ⟨"roles", ["base"], "2"⟩]

def policiesAgain : List Registration :=
  [.extend [⟨"access", ["base", "roles"], "1"⟩, ⟨"roles", ["base"], "2"⟩, ⟨"base", [], "1"⟩],
    .insert ⟨"audit", [], "1"⟩]

theorem policies_load :
    Loads policies [⟨"base", [], "1"⟩, ⟨"roles", ["base"], "2"⟩,
      ⟨"access", ["roles", "base", "roles"], "1"⟩, ⟨"audit", [], "1"⟩] ∧
    (build policiesAgain).loadOrder.toOption.map (·.map Module.name) =
      (build policies).loadOrder.toOption.map (·.map Module.name) := by
  have canonical := loadOrder_canonical policies
  have toList : (build policies).toList = [⟨"access", ["roles", "base", "roles"], "1"⟩,
      ⟨"roles", ["base"], "2"⟩, ⟨"base", [], "1"⟩, ⟨"audit", [], "1"⟩] := rfl
  have toList' : (build policiesAgain).toList = [⟨"access", ["base", "roles"], "1"⟩,
      ⟨"roles", ["base"], "2"⟩, ⟨"base", [], "1"⟩, ⟨"audit", [], "1"⟩] := rfl
  refine ⟨(canonical.2.1 _ rfl).1, canonical.2.2 policiesAgain (by decide) fun imported name => ?_⟩
  simp only [imports_iff, toList, toList', List.mem_cons, List.not_mem_nil, or_false,
    exists_eq_or_imp, exists_eq_left, and_false]
  grind

end Registry

end Arbiter
