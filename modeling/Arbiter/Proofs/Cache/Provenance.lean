import Arbiter.Proofs.Cache.Service.History

namespace Arbiter

universe u v

variable {α : Type u} {ε : Type v}

namespace Service

/-- What is cached of `key` is given up: the key is deleted, evicted or loaded anew. -/
def Undoes (key : String) (σ : Service α) (a : Action ε α) : Prop :=
  Deletes key σ a ∨ (∃ s, Evicts key s σ a) ∨ Claims key σ a

/-- `value` was loaded by a get of `key` in the course of the run, the load ended at a time from
which on it is fresh by `expiry`, and since then it has not been given up. -/
def Loaded (σ : Service α) (as : List (Action ε α)) (key : String) (value : α)
    (expiry : Expiry) : Prop :=
  ∃ older call newer, as = older ++ .settle call.id (.ok value) :: newer ∧
    (σ.run older).Current call ∧ call.key = key ∧
    expiry = .after (σ.run older).now call.ttl ∧
    ¬ Occurs (Undoes key) (σ.run (older ++ [.settle call.id (.ok value)])) newer

/-- Where `value` comes from: a get of `key` ran its loader and ended with it in the course of
the run, it is fresh at the end, and since then it has not been given up. -/
def Sourced (σ : Service α) (as : List (Action ε α)) (key : String) (value : α) : Prop :=
  ∃ before call during newer,
    as = before ++ .enter key call.ttl :: during ++ .settle call.id (.ok value) :: newer ∧
    call.key = key ∧ (σ.run before).reply (.enter key call.ttl : Action ε α) = .runs call ∧
    (σ.run (before ++ .enter key call.ttl :: during)).Current call ∧
    (σ.run as).now.nanos <
      (σ.run (before ++ .enter key call.ttl :: during)).now.nanos + call.ttl.nanos ∧
    ¬ Occurs (Undoes key) (σ.run
      (before ++ .enter key call.ttl :: during ++ [.settle call.id (.ok value)])) newer

section Step

variable {σ σ' : Service α} {a : Action ε α} {r : Reply ε α} {key : String} {s : Slot} {value : α}
  {expiry : Expiry}

theorem unmapped_of_deletes (h : Deletes key σ a) (steady : σ.cache.Steady) :
    (σ.step a).cache.table[key]? = none := by
  obtain ⟨rfl, deleted⟩ := h
  have stepped := (stepped steady (.delete key : Action ε α)).2
  rw [deleted] at stepped
  cases stepped with
  | read _ _ _ kept => exact absurd rfl kept
  | delete _ _ _ table => rw [table, Std.TreeMap.getElem?_erase_self]

theorem loading_of_claims (h : Claims key σ a) (steady : σ.cache.Steady)
    (mapped : (σ.step a).cache.table[key]? = some s) :
    ((σ.step a).cache.cell s).content = .loading := by
  obtain ⟨ttl, call, rfl, runs, claim⟩ := h
  have stepped := (stepped steady (.enter key ttl : Action ε α)).2
  rw [runs] at stepped
  cases stepped with
  | read _ _ idle => exact absurd rfl (idle call)
  | bypass _ _ _ is => exact absurd (congrArg Call.claim is) claim
  | claim _ _ t _ _ _ claimed =>
    have here := claimed.mapped
    rw [mapped] at here
    cases here
    rw [claimed.cell, Function.update_self]

theorem not_undoes (steady : σ.cache.Steady) (mapped : (σ.step a).cache.table[key]? = some s)
    (stored : ((σ.step a).cache.cell s).content = .stored value expiry) : ¬ Undoes key σ a := by
  rintro (deletes | ⟨_, -, -, unmapped⟩ | claims)
  · rw [unmapped_of_deletes deletes steady] at mapped
    cases mapped
  · rw [unmapped] at mapped
    cases mapped
  · rw [loading_of_claims claims steady mapped] at stored
    cases stored

theorem Stepped.stored (h : Stepped σ σ' a r) (steady : σ.cache.Steady)
    (mapped : σ'.cache.table[key]? = some s)
    (stored : (σ'.cache.cell s).content = .stored value expiry) :
    (σ.cache.table[key]? = some s ∧ (σ.cache.cell s).content = .stored value expiry) ∨
    ∃ call, a = .settle call.id (.ok value) ∧ σ.Current call ∧ call.key = key ∧
      expiry = .after σ.now call.ttl := by
  cases h with
  | read _ _ _ _ table cell =>
    rw [table] at mapped
    rw [cell] at stored
    exact .inl ⟨mapped, stored⟩
  | bypass _ _ _ _ table cell =>
    rw [table] at mapped
    rw [cell] at stored
    exact .inl ⟨mapped, stored⟩
  | claim k _ t _ _ _ claimed =>
    by_cases e : key = k
    · subst e
      rw [claimed.mapped] at mapped
      cases mapped
      rw [claimed.cell, Function.update_self] at stored
      cases stored
    · obtain ⟨owned, ne⟩ := (claimed.others key e s).1 mapped
      rw [claimed.cell, Function.update_of_ne ne] at stored
      exact .inl ⟨owned, stored⟩
  | store done t loaded mem claim holds table cell =>
    rw [table] at mapped
    by_cases e : s = t.slot
    · subst e
      rw [cell, Function.update_self] at stored
      cases stored
      have owned := (Cache.holds_iff.1 holds).1
      exact .inr ⟨done, rfl, ⟨mem, t, claim, holds⟩,
        Cache.Coherent.table_injective steady owned mapped, rfl⟩
    · rw [cell, Function.update_of_ne e] at stored
      exact .inl ⟨mapped, stored⟩
  | drop done t _ _ _ holds table cell =>
    rw [table, Cache.getElem?_erase_eq_some] at mapped
    have ne : s ≠ t.slot := by
      rintro rfl
      exact mapped.2 (Cache.Coherent.table_injective steady mapped.1 (Cache.holds_iff.1 holds).1)
    rw [cell, Function.update_of_ne ne] at stored
    exact .inl ⟨mapped.1, stored⟩
  | discard _ _ _ _ same =>
    rw [same] at mapped stored
    exact .inl ⟨mapped, stored⟩
  | delete k t owned table cell =>
    rw [table, Cache.getElem?_erase_eq_some] at mapped
    have ne : s ≠ t := by
      rintro rfl
      exact mapped.2 (Cache.Coherent.table_injective steady mapped.1 owned)
    rw [cell, Function.update_of_ne ne] at stored
    exact .inl ⟨mapped.1, stored⟩

end Step

section Reply

variable {σ : Service α} {a : Action ε α} {key : String} {ttl : Duration} {value : α}
  {result : Except (LoadError ε) α} {called : Bool}

theorem stored_of_served (steady : σ.cache.Steady)
    (served : σ.reply (.enter key ttl : Action ε α) = .served ⟨result, called⟩) :
    ttl.isZero = false ∧ called = false ∧ ∃ value s expiry, result = .ok value ∧
      σ.cache.table[key]? = some s ∧ (σ.cache.cell s).content = .stored value expiry ∧
      expiry.isFresh σ.now = true := by
  cases zero : ttl.isZero with
  | true =>
    rw [reply, act, σ.cache.enter_bypass σ.now key zero] at served
    cases served
  | false =>
    rw [reply, act, σ.cache.enter_lookup σ.now key zero] at served
    have looked := (steady.lookup σ.now key).2
    generalize σ.cache.lookup σ.now key = looking at served looked
    obtain ⟨c, lookup⟩ := looking
    cases looked <;> cases served
    exact ⟨rfl, rfl, _, _, _, rfl, ‹_›, ‹_›, ‹_›⟩

theorem stored_of_found
    (found : σ.reply (.peek key : Action ε α) = .found (some value)) : ∃ s expiry,
      σ.cache.table[key]? = some s ∧ (σ.cache.cell s).content = .stored value expiry ∧
      expiry.isFresh σ.now = true := by
  have peeked : σ.cache.peek σ.now key = some value := Reply.found.inj found
  rw [Cache.peek, Option.bind_eq_some_iff] at peeked
  obtain ⟨s, mapped, fresh⟩ := peeked
  cases content : (σ.cache.cell s).content with
  | stored stored expiry =>
    rw [content, Content.fresh?, Option.ite_none_right_eq_some] at fresh
    obtain ⟨fresh, is⟩ := fresh
    cases is
    exact ⟨s, expiry, mapped, content, fresh⟩
  | _ => rw [content] at fresh; cases fresh

theorem served_cases (steady : σ.cache.Steady) (served : σ.reply a = .served ⟨result, called⟩) :
    (∃ key ttl value s expiry, a = .enter key ttl ∧ ttl.isZero = false ∧ result = .ok value ∧
      called = false ∧ σ.cache.table[key]? = some s ∧
      (σ.cache.cell s).content = .stored value expiry ∧ expiry.isFresh σ.now = true) ∨
    ∃ call ∈ σ.running, a = .settle call.id result ∧ called = true := by
  cases a with
  | enter key ttl =>
    obtain ⟨positive, called, value, s, expiry, ok, stored⟩ := stored_of_served steady served
    exact .inl ⟨key, ttl, value, s, expiry, rfl, positive, ok, called, stored⟩
  | settle id outcome =>
    rw [reply, act] at served
    cases found : σ.running.find? (·.id == id) with
    | none =>
      rw [found] at served
      cases served
    | some call =>
      have same : call.id = id := by simpa using List.find?_some found
      simp only [found, settle_eq] at served
      cases served
      exact .inr ⟨call, List.mem_of_find?_eq_some found, same ▸ rfl, rfl⟩
  | delete key => cases served
  | peek key => cases served
  | advance span =>
    rw [reply, act] at served
    cases moved : σ.now.add? span <;> rw [moved] at served <;> cases served

end Reply

section Run

variable {σ : Service α} {as : List (Action ε α)} {a : Action ε α} {key : String} {s : Slot}
  {value : α} {expiry : Expiry} {n : Nat}

theorem Loaded.snoc (h : σ.Loaded as key value expiry) (kept : ¬ Undoes key (σ.run as) a) :
    σ.Loaded (as ++ [a]) key value expiry := by
  obtain ⟨older, call, newer, rfl, current, is_key, is_expiry, quiet⟩ := h
  refine ⟨older, call, newer ++ [a], by simp, current, is_key, is_expiry, ?_⟩
  rw [List.append_cons, run_append] at kept
  rw [occurs_append, not_or]
  exact ⟨quiet, by simpa using kept⟩

theorem loaded_of_stored
    (mapped : ((ofCapacity n : Service α).run as).cache.table[key]? = some s)
    (stored : (((ofCapacity n : Service α).run as).cache.cell s).content =
      .stored value expiry) : (ofCapacity n : Service α).Loaded as key value expiry := by
  induction as using List.reverseRecOn generalizing s with
  | nil =>
    rw [run_nil, ofCapacity, Cache.cell_ofCapacity] at stored
    cases stored
  | append_singleton as a ih =>
    have steady := ((sound_ofCapacity (α := α) n).run as).steady
    rw [run_append] at mapped stored
    -- What the last step has not stored itself was stored before it, and is still there.
    rcases (stepped steady a).2.stored steady mapped stored with
      ⟨mapped', stored'⟩ | ⟨call, rfl, current, is_key, is_expiry⟩
    · exact (ih mapped' stored').snoc (not_undoes steady mapped stored)
    · exact ⟨as, call, [], rfl, current, is_key, is_expiry, id⟩

theorem Loaded.sourced (h : (ofCapacity n : Service α).Loaded as key value expiry)
    (fresh : expiry.isFresh ((ofCapacity n : Service α).run as).now = true) :
    (ofCapacity n : Service α).Sourced as key value := by
  obtain ⟨older, call, newer, is, current, rfl, rfl, quiet⟩ := h
  obtain ⟨before, during, rfl, runs⟩ := started current.1
  rw [Expiry.isFresh_after] at fresh
  exact ⟨before, call, during, newer, is, rfl, runs, current, fresh, quiet⟩

end Run

/-- Values are served and found only as they were loaded for their key, and errors only by the
calls that met them. -/
theorem provenance_run (n : Nat) (as : List (Action ε α)) :
    (∀ (a : Action ε α) (value : α),
      ((ofCapacity n).run as).reply a = .served ⟨.ok value, false⟩ →
      ∃ key ttl, a = .enter key ttl ∧ ttl.isZero = false ∧
        (ofCapacity n).Sourced as key value) ∧
    (∀ (key : String) (value : α),
      ((ofCapacity n).run as).reply (.peek key : Action ε α) = .found (some value) →
      (ofCapacity n).Sourced as key value) ∧
    ∀ (a : Action ε α) (error : LoadError ε) (called : Bool),
      ((ofCapacity n).run as).reply a = .served ⟨.error error, called⟩ →
      called = true ∧ ∃ call ∈ ((ofCapacity n).run as).running,
        a = .settle call.id (.error error) := by
  have steady := ((sound_ofCapacity (α := α) n).run as).steady
  refine ⟨?_, ?_, ?_⟩
  · intro a value served
    rcases served_cases steady served with
      ⟨key, ttl, stored, s, expiry, is, positive, ok, -, mapped, content, fresh⟩ | ⟨_, _, _, no⟩
    · cases ok
      exact ⟨key, ttl, is, positive, (loaded_of_stored mapped content).sourced fresh⟩
    · cases no
  · intro key value found
    obtain ⟨s, expiry, mapped, content, fresh⟩ := stored_of_found found
    exact (loaded_of_stored mapped content).sourced fresh
  · intro a error called served
    rcases served_cases steady served with ⟨_, _, _, _, _, _, _, no, _⟩ | ⟨call, mem, is, ran⟩
    · cases no
    · exact ⟨ran, call, mem, is⟩

def loadedOnce : List (Action String Nat) := [.enter "a" ⟨5⟩, .settle 0 (.ok 7), .advance ⟨4⟩]

theorem hit_provenance :
    ((ofCapacity 1).run loadedOnce).reply (.enter "a" ⟨3⟩ : Action String Nat) =
      .served ⟨.ok 7, false⟩ ∧
    ((ofCapacity 1).run loadedOnce).reply (.peek "a" : Action String Nat) = .found (some 7) ∧
    (ofCapacity 1).Sourced loadedOnce "a" 7 := by
  have served : ((ofCapacity 1).run loadedOnce).reply (.enter "a" ⟨3⟩ : Action String Nat) =
      .served ⟨.ok 7, false⟩ := by rfl
  have found : ((ofCapacity 1).run loadedOnce).reply (.peek "a" : Action String Nat) =
      .found (some 7) := by rfl
  exact ⟨served, found, (provenance_run 1 loadedOnce).2.1 "a" 7 found⟩

end Service

end Arbiter
