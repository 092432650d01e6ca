import Arbiter.Module
import Arbiter.Proofs.Dependencies.History

namespace Arbiter

namespace Registry

inductive Registration where
  | insert (m : Module)
  | extend (ms : List Module)

def Registration.modules : Registration → List Module
  | .insert m => [m]
  | .extend ms => ms

def apply (r : Registry) : Registration → Registry
  | .insert m => r.insert m
  | .extend ms => r.insertAll ms

def build (cs : List Registration) : Registry := cs.foldl apply ∅

def registered (cs : List Registration) : List Module := cs.flatMap Registration.modules

def firstRegistered (cs : List Registration) : List String :=
  ((registered cs).map Module.name).eraseDups

def lastRegistered (cs : List Registration) (name : String) : Option Module :=
  (registered cs).reverse.find? (·.name = name)

/-- The module that was last registered under `name` imports `imported`. -/
def Imports (cs : List Registration) (imported name : String) : Prop :=
  ∃ m, lastRegistered cs name = some m ∧ imported ∈ m.imports

def names (r : Registry) : Interner := ⟨r.index, r.modules.map Module.name⟩

variable {r : Registry} {m : Module} {name : String} {i : Nat}

section Lookup

theorem toList_names (r : Registry) : r.names.toList = r.toList.map Module.name :=
  Array.toList_map

theorem name?_names (r : Registry) (i : Nat) :
    r.names.name? i = r.modules[i]?.map Module.name := Array.getElem?_map

theorem mem_names_of_mem (mem : m ∈ r.toList) : m.name ∈ r.names.toList := by
  rw [toList_names]
  exact List.mem_map_of_mem mem

theorem contains_iff (c : r.names.Coherent) : r.contains name = true ↔ name ∈ r.names.toList := by
  rw [contains, Std.TreeMap.contains_eq_isSome_getElem?, ← not_iff_not, ← c.handle?_eq_none,
    Option.not_isSome_iff_eq_none]
  exact Iff.rfl

theorem mem_toList_iff : m ∈ r.toList ↔ ∃ i : Nat, r.modules[i]? = some m := by
  rw [toList, List.mem_iff_getElem?]
  simp only [Array.getElem?_toList]

theorem get?_eq_some_iff (c : r.names.Coherent) :
    r.get? name = some m ↔ m ∈ r.toList ∧ m.name = name := by
  rw [get?, Option.bind_eq_some_iff, mem_toList_iff]
  constructor
  · rintro ⟨i, is, e⟩
    have named := (c name i).1 is
    rw [name?_names, e] at named
    exact ⟨⟨i, e⟩, Option.some.inj named⟩
  · rintro ⟨⟨i, e⟩, rfl⟩
    exact ⟨i, (c m.name i).2 (by rw [name?_names, e]; rfl), e⟩

end Lookup

section Insert

theorem insert_known (known : r.index[m.name]? = some i) :
    r.insert m = { r with modules := r.modules.setIfInBounds i m } := by
  rw [insert, known]

theorem insert_new (new : r.index[m.name]? = none) :
    r.insert m = ⟨r.index.insert m.name r.modules.size, r.modules.push m⟩ := by
  rw [insert, new]

theorem lt_of_index (c : r.names.Coherent) (known : r.index[name]? = some i) :
    i < r.modules.size := by
  simpa [Interner.size, names] using Interner.lt_of_name? ((c name i).1 known)

theorem names_insert (c : r.names.Coherent) (m : Module) :
    (r.insert m).names = (r.names.intern m.name).1 := by
  cases known : r.index[m.name]? with
  | some i =>
    have named := (c m.name i).1 known
    rw [name?_names] at named
    -- The module takes the place of another of its name.
    have kept : (r.modules.setIfInBounds i m).map Module.name = r.modules.map Module.name := by
      apply Array.ext_getElem?
      intro j
      rw [Array.getElem?_map, Array.getElem?_map, Array.getElem?_setIfInBounds]
      split
      · subst j
        rw [named, if_pos (lt_of_index c known)]
        rfl
      · rfl
    have handle : r.names.handle? m.name = some i := known
    rw [insert_known known, Interner.intern_of_known handle, names, kept]
    rfl
  | none =>
    have new : r.names.handle? m.name = none := known
    rw [insert_new known, Interner.intern_of_new new, names, Array.map_push]
    simp [names, Interner.size]

theorem get?_insert (c : r.names.Coherent) (m : Module) (name : String) :
    (r.insert m).get? name = if m.name = name then some m else r.get? name := by
  cases known : r.index[m.name]? with
  | some i =>
    rw [insert_known known, get?]
    split
    · subst name
      rw [known, Option.bind_some, Array.getElem?_setIfInBounds_self_of_lt (lt_of_index c known)]
    · rw [get?]
      cases elsewhere : r.index[name]? with
      | none => rfl
      | some j =>
        have ne : i ≠ j := by
          rintro rfl
          have named := (c m.name i).1 known
          rw [(c name i).1 elsewhere] at named
          exact ‹¬ m.name = name› (Option.some.inj named).symm
        rw [Option.bind_some, Option.bind_some, Array.getElem?_setIfInBounds_ne ne]
  | none =>
    rw [insert_new known, get?, Std.TreeMap.getElem?_insert]
    simp only [Std.LawfulEqCmp.compare_eq_iff_eq]
    split
    · rw [Option.bind_some, Array.getElem?_push_size]
    · rw [get?]
      cases elsewhere : r.index[name]? with
      | none => rfl
      | some j =>
        rw [Option.bind_some, Option.bind_some, Array.getElem?_push_lt (lt_of_index c elsewhere),
          Array.getElem?_eq_getElem]

end Insert

section Build

theorem build_eq (cs : List Registration) : build cs = ofList (registered cs) := by
  have from_ : ∀ r : Registry, cs.foldl apply r = r.insertAll (registered cs) := by
    induction cs with
    | nil => exact fun _ => rfl
    | cons c cs ih =>
      intro r
      have split : registered (c :: cs) = c.modules ++ registered cs := List.flatMap_cons ..
      rw [List.foldl_cons, ih, split, insertAll, insertAll, List.foldl_append]
      cases c <;> rfl
  exact from_ ∅

theorem ofList_concat (ms : List Module) (m : Module) :
    ofList (ms ++ [m]) = (ofList ms).insert m := List.foldl_concat ..

theorem names_empty : (ofList []).names = ∅ := congrArg (Interner.mk ∅) Array.map_empty

theorem names_ofList (ms : List Module) :
    (ofList ms).names = .ofList (ms.map Module.name) := by
  induction ms using List.reverseRecOn with
  | nil => exact names_empty
  | append_singleton ms m ih =>
    have c : (ofList ms).names.Coherent := ih ▸ Interner.coherent_ofList _
    rw [ofList_concat, names_insert c, ih, List.map_append, List.map_singleton,
      Interner.ofList_concat]

theorem coherent_ofList (ms : List Module) : (ofList ms).names.Coherent := by
  rw [names_ofList]
  exact Interner.coherent_ofList _

theorem get?_ofList (ms : List Module) (name : String) :
    (ofList ms).get? name = ms.reverse.find? (·.name = name) := by
  induction ms using List.reverseRecOn with
  | nil => rfl
  | append_singleton ms m ih =>
    rw [ofList_concat, get?_insert (coherent_ofList ms), ih, List.reverse_concat, List.find?_cons]
    by_cases same : m.name = name <;> simp [same]

end Build

variable {cs : List Registration}

theorem coherent_build (cs : List Registration) : (build cs).names.Coherent := by
  rw [build_eq]
  exact coherent_ofList _

theorem names_build (cs : List Registration) : (build cs).names.toList = firstRegistered cs := by
  rw [build_eq, names_ofList]
  exact Interner.toList_ofList _

theorem get?_build (cs : List Registration) (name : String) :
    (build cs).get? name = lastRegistered cs name := by
  rw [build_eq]
  exact get?_ofList _ name

end Registry

end Arbiter
