import Arbiter.Proofs.Dependencies.Detection
import Arbiter.Proofs.Module.Loading

namespace Arbiter

universe u

namespace Registry

open Dependencies (Linked)

def current (cs : List Registration) : List Module :=
  (firstRegistered cs).filterMap (lastRegistered cs)

def importPairs (cs : List Registration) : List (String × String) :=
  (current cs).flatMap fun m => m.imports.map (m.name, ·)

def Offends (cs : List Registration) (pair : String × String) : Prop :=
  pair.2 ∉ firstRegistered cs ∨ pair.2 = pair.1

instance (cs : List Registration) (pair : String × String) : Decidable (Offends cs pair) :=
  inferInstanceAs (Decidable (_ ∨ _))

def firstOffence? (cs : List Registration) : Option (String × String) :=
  (importPairs cs).find? (Offends cs ·)

def report (cs : List Registration) (pair : String × String) : ImportError :=
  if pair.2 ∈ firstRegistered cs then .graph (.selfLoop pair.1) else .missing pair.1 pair.2

variable {cs : List Registration}

section Offences

theorem toList_build (cs : List Registration) : (build cs).toList = current cs := by
  have coherent := coherent_build cs
  have self : ∀ m ∈ (build cs).toList, (build cs).get? m.name = some m := fun m mem =>
    (get?_eq_some_iff coherent).2 ⟨mem, rfl⟩
  rw [current, ← names_build, toList_names, List.filterMap_map]
  symm
  refine (List.filterMap_congr fun m mem => ?_).trans List.filterMap_some
  rw [Function.comp_apply, ← get?_build, self m mem]

theorem fault?_build (m : Module) (imported : String) : (build cs).fault? m imported =
    (Option.guard (Offends cs ·) (m.name, imported)).map (report cs) := by
  have known : (build cs).contains imported = true ↔ imported ∈ firstRegistered cs := by
    rw [contains_iff (coherent_build cs), names_build]
  rw [fault?]
  by_cases registered : imported ∈ firstRegistered cs
  · by_cases own : imported = m.name
    · subst own
      simp [Option.guard, Offends, report, known, registered]
    · simp [Option.guard, Offends, known, registered, own]
  · simp [Option.guard, Offends, report, known, registered]

theorem firstFault?_eq (cs : List Registration) :
    (build cs).firstFault? = (firstOffence? cs).map (report cs) := by
  rw [firstFault?, toList_build, firstOffence?, importPairs, List.find?_flatMap,
    List.map_findSome?]
  congr 1
  funext m
  rw [Function.comp_apply, ← List.findSome?_guard, List.map_findSome?, List.findSome?_map]
  congr 1
  funext imported
  exact fault?_build m imported

theorem firstFault?_of_inoffensive (inoffensive : firstOffence? cs = none) :
    (build cs).firstFault? = none := by
  rw [firstFault?_eq, inoffensive, Option.map_none]

theorem loadOrder_of_offence {pair : String × String} (offence : firstOffence? cs = some pair) :
    (build cs).loadOrder = .error (report cs pair) := by
  rw [loadOrder_eq, firstFault?_eq, offence]
  rfl

end Offences

section Cycles

theorem exists_of_mem_chain {β : Type u} {linked : β → β → Prop} {path : List β}
    (chain : path.IsChain linked) (long : 2 ≤ path.length) {x : β} (mem : x ∈ path) :
    ∃ y, linked x y ∨ linked y x := by
  induction chain with
  | nil => cases mem
  | singleton => simp at long
  | @cons_cons a b path link rest ih =>
    rcases List.mem_cons.1 mem with rfl | mem
    · exact ⟨b, .inl link⟩
    · cases path with
      | nil =>
        obtain rfl := List.mem_singleton.1 mem
        exact ⟨a, .inr link⟩
      | cons c path => exact ih (by simp) mem

theorem registered_of_imports {imported name : String} (imports : Imports cs imported name) :
    name ∈ firstRegistered cs := by
  obtain ⟨m, mem, rfl, -⟩ := imports_iff.1 imports
  rw [← names_build]
  exact mem_names_of_mem mem

theorem registered_of_loop (sound : (build cs).firstFault? = none) {path : List String}
    (loop : Loop (Imports cs) path) {name : String} (mem : name ∈ path) :
    name ∈ firstRegistered cs := by
  have long : 2 ≤ path.length := Nat.le_of_succ_le loop.three_le
  obtain ⟨other, imported | imports⟩ := exists_of_mem_chain loop.chain long mem
  · exact (firstFault?_build.1 sound _ _ imported).1
  · exact registered_of_imports imports

theorem loadOrder_of_cycle (sound : (build cs).firstFault? = none)
    (cyclic : ∃ name, Relation.TransGen (Imports cs) name name) :
    ∃ path, (build cs).loadOrder = .error (.graph (.cycleDetected path)) ∧
      Loop (Imports cs) path := by
  rw [← linked_build sound] at cyclic ⊢
  have coherent := Dependencies.coherent_build (build cs).changes
  cases order : (Dependencies.build (build cs).changes).graph.order with
  | ok vs =>
    have acyclic := coherent.order_iff_acyclic.1 ⟨vs, order⟩
    obtain ⟨name, round⟩ := cyclic
    exact absurd round ((Dependencies.linked_acyclic_iff _).2 acyclic name)
  | error left =>
    obtain ⟨path, error, loop⟩ := Dependencies.loop_of_order order
    refine ⟨path, ?_, loop⟩
    rw [loadOrder_eq, sound, Option.elim_none, Dependencies.sortValues, error]
    rfl

theorem loadOrder_of_acyclic (sound : (build cs).firstFault? = none)
    (acyclic : ∀ name, ¬ Relation.TransGen (Imports cs) name name) :
    ∃ order, (build cs).loadOrder = .ok order := by
  have imports := firstFault?_build.1 sound
  exact (loadOrder_ok_iff cs).2 ⟨fun i n h => (imports i n h).1, fun n h => (imports n n h).2 rfl,
    acyclic⟩

theorem error_cases {e : ImportError} (error : (build cs).loadOrder = .error e) :
    (∃ name imported, e = .missing name imported) ∨ (∃ name, e = .graph (.selfLoop name)) ∨
      ∃ path, e = .graph (.cycleDetected path) := by
  cases offence : firstOffence? cs with
  | some pair =>
    rw [loadOrder_of_offence offence, Except.error.injEq, report] at error
    split at error
    · exact .inr (.inl ⟨_, error.symm⟩)
    · exact .inl ⟨_, _, error.symm⟩
  | none =>
    have sound := firstFault?_of_inoffensive offence
    by_cases cyclic : ∃ name, Relation.TransGen (Imports cs) name name
    · obtain ⟨path, cycle, -⟩ := loadOrder_of_cycle sound cyclic
      rw [cycle, Except.error.injEq] at error
      exact .inr (.inr ⟨path, error.symm⟩)
    · obtain ⟨order, ok⟩ := loadOrder_of_acyclic sound (not_exists.1 cyclic)
      cases ok.symm.trans error

end Cycles

/-- The first import that offends, by registration of the importer and then by declaration, is what
a load order fails for. Where none does it fails for a cycle, and shows one of the imports as they
are now; where there is no cycle either it does not fail. -/
theorem loadOrder_reports (cs : List Registration) :
    (∀ name imported, firstOffence? cs = some (name, imported) → (build cs).loadOrder = .error
      (if imported ∈ firstRegistered cs then .graph (.selfLoop name)
        else .missing name imported)) ∧
    (firstOffence? cs = none → (∃ name, Relation.TransGen (Imports cs) name name) →
      ∃ path, (build cs).loadOrder = .error (.graph (.cycleDetected path)) ∧
        Loop (Imports cs) path ∧ ∀ name ∈ path, name ∈ firstRegistered cs) ∧
    (firstOffence? cs = none → (∀ name, ¬ Relation.TransGen (Imports cs) name name) →
      ∃ order, (build cs).loadOrder = .ok order) ∧
    (∀ id, (build cs).loadOrder ≠ .error (.graph (.nodeNotFound id))) ∧
    (build cs).loadOrder ≠ .error (.graph .notADag) := by
  refine ⟨fun name imported => loadOrder_of_offence, fun inoffensive cyclic => ?_,
    fun inoffensive => loadOrder_of_acyclic (firstFault?_of_inoffensive inoffensive),
    fun id error => ?_, fun error => ?_⟩
  · have sound := firstFault?_of_inoffensive inoffensive
    obtain ⟨path, error, loop⟩ := loadOrder_of_cycle sound cyclic
    exact ⟨path, error, loop, fun name => registered_of_loop sound loop⟩
  · rcases error_cases error with ⟨_, _, no⟩ | ⟨_, no⟩ | ⟨_, no⟩ <;> cases no
  · rcases error_cases error with ⟨_, _, no⟩ | ⟨_, no⟩ | ⟨_, no⟩ <;> cases no

def selfish : List Registration :=
  [.insert ⟨"a", ["b", "a"], "1"⟩, .insert ⟨"b", ["c"], "1"⟩]

def replaced : List Registration :=
  [.extend [⟨"a", ["b"], "1"⟩, ⟨"b", ["a"], "1"⟩, ⟨"c", ["b"], "1"⟩], .insert ⟨"b", ["c"], "2"⟩]

def layered : List Registration := [.extend [⟨"a", ["b"], "1"⟩, ⟨"b", [], "1"⟩]]

theorem selfish_replaced_layered :
    (build selfish).loadOrder = .error (.graph (.selfLoop "a")) ∧
    (build replaced).loadOrder = .error (.graph (.cycleDetected ["b", "c", "b"])) ∧
    Loop (Imports replaced) ["b", "c", "b"] ∧
    ∃ order, (build layered).loadOrder = .ok order := by
  have toList : (build replaced).toList =
      [⟨"a", ["b"], "1"⟩, ⟨"b", ["c"], "2"⟩, ⟨"c", ["b"], "1"⟩] := rfl
  have toList' : (build layered).toList = [⟨"a", ["b"], "1"⟩, ⟨"b", [], "1"⟩] := rfl
  have there : Imports replaced "b" "c" := by simp [imports_iff, toList]
  have back : Imports replaced "c" "b" := by simp [imports_iff, toList]
  have only {imported name : String} (imports : Imports layered imported name) :
      imported = "b" ∧ name = "a" := by
    simp only [imports_iff, toList', List.mem_cons, List.not_mem_nil, or_false, exists_eq_or_imp,
      exists_eq_left, and_false] at imports
    exact ⟨imports.2, imports.1.symm⟩
  have acyclic (name : String) : ¬ Relation.TransGen (Imports layered) name name := by
    intro round
    obtain ⟨_, first, -⟩ := Relation.TransGen.head'_iff.1 round
    obtain ⟨_, -, last⟩ := Relation.TransGen.tail'_iff.1 round
    have same := (only first).1.symm.trans (only last).2
    exact absurd same (by decide)
  obtain ⟨path, error, loop, -⟩ :=
    (loadOrder_reports replaced).2.1 (by decide) ⟨"b", .tail (.single there) back⟩
  have shown : (build replaced).loadOrder = .error (.graph (.cycleDetected ["b", "c", "b"])) := by
    rfl
  cases shown.symm.trans error
  exact ⟨(loadOrder_reports selfish).1 "a" "a" (by decide), shown, loop,
    (loadOrder_reports layered).2.2.1 (by decide) acyclic⟩

end Registry

end Arbiter
