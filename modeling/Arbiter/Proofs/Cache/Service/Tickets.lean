import Arbiter.Proofs.Cache.Service.Step
import Mathlib.Data.List.Nodup

/-!
The tickets in the hands of running calls. The turn of a slot only goes up, and every call keeps
the turn at which its ticket was made, so that of two tickets for one slot no more than one is of
the present turn. A generation tells turns apart as long as it has not come around since.
-/

namespace Arbiter

universe u v

variable {α : Type u} {ε : Type v}

namespace Service

/-- The load of this call is the one that the cache waits for. -/
def Current (σ : Service α) (call : Call) : Prop :=
  call ∈ σ.running ∧ ∃ t, call.claim = some t ∧ σ.cache.holds call.key t = true

/-- No load has gone on for as many turns of its slot as there are generations. -/
def Unwrapped (σ : Service α) : Prop :=
  ∀ call ∈ σ.running, ∀ t ∈ call.claim, σ.turns t.slot < call.turn + UInt64.size

instance (σ : Service α) : Decidable σ.Unwrapped :=
  inferInstanceAs (Decidable (∀ call ∈ σ.running, ∀ t ∈ call.claim, _))

def UnwrappedAt (σ : Service α) (s : Slot) : Prop :=
  ∀ call ∈ σ.running, ∀ t ∈ call.claim, t.slot = s → σ.turns s < call.turn + UInt64.size

instance (σ : Service α) (s : Slot) : Decidable (σ.UnwrappedAt s) :=
  inferInstanceAs (Decidable (∀ call ∈ σ.running, ∀ t ∈ call.claim, _))

theorem Unwrapped.slot {σ : Service α} (h : σ.Unwrapped) (s : Slot) : σ.UnwrappedAt s := by
  rintro call mem t claim rfl
  exact h call mem t claim

structure Ticketed (σ : Service α) : Prop where
  generation : ∀ s, (σ.cache.cell s).generation = .ofNat (σ.turns s)
  ids : (σ.running.map Call.id).Nodup
  id_lt : ∀ call ∈ σ.running, call.id < σ.calls
  stamp : ∀ call ∈ σ.running, ∀ t, call.claim = some t →
    t.generation = .ofNat call.turn ∧ call.turn ≤ σ.turns t.slot
  one : ∀ l ∈ σ.running, ∀ m ∈ σ.running, ∀ t u, l.claim = some t → m.claim = some u →
    t.slot = u.slot → l.turn = m.turn → l = m
  flown : ∀ s, (σ.cache.cell s).content = .loading → ∃ call ∈ σ.running, ∃ t,
    call.claim = some t ∧ t.slot = s ∧ call.turn = σ.turns s ∧
      σ.cache.table[call.key]? = some s

namespace Ticketed

variable {σ : Service α} {l m call : Call} {t u : Ticket}

theorem eq_of_id (h : σ.Ticketed) (hl : l ∈ σ.running) (hm : m ∈ σ.running) (e : l.id = m.id) :
    l = m :=
  List.inj_on_of_nodup_map h.ids hl hm e

theorem holds_of_turn (h : σ.Ticketed) (mem : call ∈ σ.running) (claim : call.claim = some t)
    (turn : call.turn = σ.turns t.slot) (mapped : σ.cache.table[call.key]? = some t.slot)
    (loading : (σ.cache.cell t.slot).content = .loading) : σ.cache.holds call.key t = true := by
  rw [Cache.holds_iff]
  refine ⟨mapped, loading, ?_⟩
  rw [h.generation, ← turn, (h.stamp call mem t claim).1]

theorem mem_rest (h : σ.Ticketed) (hl : l ∈ σ.running) (hm : m ∈ σ.running) (ne : l ≠ m) :
    l ∈ σ.running.filter (·.id != m.id) := by
  refine List.mem_filter.2 ⟨hl, ?_⟩
  rw [bne_iff_ne]
  exact fun e => ne (h.eq_of_id hl hm e)

theorem find?_eq (h : σ.Ticketed) (mem : call ∈ σ.running) :
    σ.running.find? (·.id == call.id) = some call := by
  cases found : σ.running.find? (·.id == call.id) with
  | none => exact absurd (List.find?_eq_none.1 found call mem) (by simp)
  | some other =>
    have same : other.id = call.id := by simpa using List.find?_some found
    rw [h.eq_of_id (List.mem_of_find?_eq_some found) mem same]

theorem act_settle (h : σ.Ticketed) (mem : call ∈ σ.running)
    (outcome : Except (LoadError ε) α) :
    σ.act (.settle call.id outcome) =
      ((σ.put (σ.cache.settle σ.now call.key call.ttl call.claim outcome).1).close call,
        .served ⟨outcome, true⟩) := by
  rw [act, h.find?_eq mem]
  exact σ.settle_eq call outcome

theorem ne_of_slot (hl : l.claim = some t) (hm : m.claim = some u) (ne : t.slot ≠ u.slot) :
    l ≠ m := by
  rintro rfl
  rw [hl] at hm
  cases hm
  exact ne rfl

end Ticketed

section Stepped

variable {σ σ' : Service α} {a : Action ε α} {r : Reply ε α}

theorem Stepped.turns_le (h : Stepped σ σ' a r) (s : Slot) : σ.turns s ≤ σ'.turns s := by
  have raised : ∀ (t : Slot) (lag : Nat),
      σ.turns s ≤ Function.update σ.turns t (σ.turns t + lag) s := by
    intro t lag
    by_cases e : s = t
    · subst e
      simp
    · simp [Function.update_of_ne e]
  cases h with
  | claim _ _ s lag _ _ _ turns =>
    rw [turns]
    exact raised s lag
  | drop _ t _ _ _ _ _ _ turns =>
    rw [turns]
    exact raised t.slot 1
  | delete _ s _ _ _ turns =>
    rw [turns]
    exact raised s 1
  | _ => exact Nat.le_of_eq (congrFun ‹σ'.turns = σ.turns› s).symm

theorem Stepped.running_cases (h : Stepped σ σ' a r) (ticketed : σ.Ticketed) :
    (σ'.running.Sublist σ.running ∧ σ'.calls = σ.calls) ∨
    ∃ call, σ'.running = call :: σ.running ∧ call.id = σ.calls ∧ σ'.calls = σ.calls + 1 ∧
      ∀ t, call.claim = some t → t.generation = .ofNat call.turn ∧ σ.turns t.slot < call.turn ∧
        call.turn = σ'.turns t.slot := by
  cases h with
  | read _ _ _ _ _ _ _ running calls => exact .inl ⟨running ▸ List.Sublist.refl _, calls⟩
  | bypass _ _ call is _ _ _ running calls =>
    subst is
    exact .inr ⟨_, running, rfl, calls, nofun⟩
  | claim _ _ s lag call is claimed turns running calls =>
    subst is
    refine .inr ⟨_, running, rfl, calls, ?_⟩
    rintro t ⟨⟩
    refine ⟨?_, ?_, ?_⟩
    · rw [ticketed.generation, ← UInt64.ofNat_add]
    · have moved := claimed.small
      show σ.turns s < σ.turns s + lag
      omega
    · rw [turns, Function.update_self]
  | store _ _ _ _ _ _ _ _ _ running calls => exact .inl ⟨running ▸ List.filter_sublist, calls⟩
  | drop _ _ _ _ _ _ _ _ _ running calls => exact .inl ⟨running ▸ List.filter_sublist, calls⟩
  | discard _ _ _ _ _ _ running calls => exact .inl ⟨running ▸ List.filter_sublist, calls⟩
  | delete _ _ _ _ _ _ running calls => exact .inl ⟨running ▸ List.Sublist.refl _, calls⟩

theorem Stepped.generation (h : Stepped σ σ' a r)
    (counted : ∀ s, (σ.cache.cell s).generation = .ofNat (σ.turns s)) (s : Slot) :
    (σ'.cache.cell s).generation = .ofNat (σ'.turns s) := by
  have moved : ∀ (t : Slot) (lag : Nat) (x : Cell α),
      x.generation = (σ.cache.cell t).generation + .ofNat lag →
      (Function.update σ.cache.cell t x s).generation =
        .ofNat (Function.update σ.turns t (σ.turns t + lag) s) := by
    intro t lag x hx
    by_cases e : s = t
    · subst e
      rw [Function.update_self, Function.update_self, hx, counted, ← UInt64.ofNat_add]
    · rw [Function.update_of_ne e, Function.update_of_ne e, counted]
  cases h with
  | read _ _ _ _ _ cell turns => rw [cell, turns, counted]
  | bypass _ _ _ _ _ cell turns => rw [cell, turns, counted]
  | claim _ _ t lag _ _ claimed turns =>
    rw [claimed.cell, turns]
    exact moved t lag _ rfl
  | store _ t _ _ _ _ _ cell turns =>
    rw [cell, turns, ← Function.update_eq_self t.slot σ.turns]
    exact moved t.slot 0 _ (UInt64.add_zero _).symm
  | drop _ t _ _ _ _ _ cell turns =>
    rw [cell, turns]
    exact moved t.slot 1 _ rfl
  | discard _ _ _ _ same turns => rw [same, turns, ← counted]; rfl
  | delete _ t _ _ cell turns =>
    rw [cell, turns]
    exact moved t 1 _ rfl

theorem Ticketed.flown_carry (h : σ.Ticketed) {s : Slot}
    (loading : (σ.cache.cell s).content = .loading) (turns : σ'.turns s = σ.turns s)
    (table : ∀ key : String, σ.cache.table[key]? = some s → σ'.cache.table[key]? = some s)
    (running : ∀ call ∈ σ.running, ∀ t, call.claim = some t → t.slot = s →
      σ.cache.holds call.key t = true → call ∈ σ'.running) :
    ∃ call ∈ σ'.running, ∃ t, call.claim = some t ∧ t.slot = s ∧ call.turn = σ'.turns s ∧
      σ'.cache.table[call.key]? = some s := by
  obtain ⟨call, mem, t, claim, rfl, turn, mapped⟩ := h.flown s loading
  have holds := h.holds_of_turn mem claim turn mapped loading
  refine ⟨call, running call mem t claim rfl holds, t, claim, rfl, ?_, table call.key mapped⟩
  rw [turns]
  exact turn

theorem Stepped.flown (h : Stepped σ σ' a r) (ticketed : σ.Ticketed) (s : Slot)
    (loading : (σ'.cache.cell s).content = .loading) : ∃ call ∈ σ'.running, ∃ t,
      call.claim = some t ∧ t.slot = s ∧ call.turn = σ'.turns s ∧
        σ'.cache.table[call.key]? = some s := by
  cases h with
  | read _ _ _ _ table cell turns running =>
    rw [cell] at loading
    apply ticketed.flown_carry loading (by rw [turns]) (by rw [table]; exact fun _ => id)
    intro call mem _ _ _ _
    exact running ▸ mem
  | bypass _ _ _ _ table cell turns running =>
    rw [cell] at loading
    apply ticketed.flown_carry loading (by rw [turns]) (by rw [table]; exact fun _ => id)
    intro call mem _ _ _ _
    exact running ▸ List.mem_cons_of_mem _ mem
  | claim key _ c lag call is claimed turns running =>
    by_cases e : s = c
    · subst e is
      rw [running, turns, Function.update_self]
      exact ⟨_, List.mem_cons_self, _, rfl, rfl, rfl, claimed.mapped⟩
    · rw [claimed.cell, Function.update_of_ne e] at loading
      apply ticketed.flown_carry loading
      · rw [turns, Function.update_of_ne e]
      · intro j owned
        refine (claimed.others j ?_ s).2 ⟨owned, e⟩
        rintro rfl
        exact e (claimed.idle s owned).1
      · intro call mem _ _ _ _
        exact running ▸ List.mem_cons_of_mem _ mem
  | store done t value mem claim holds table cell turns running =>
    by_cases e : s = t.slot
    · subst e
      rw [cell, Function.update_self] at loading
      cases loading
    · rw [cell, Function.update_of_ne e] at loading
      apply ticketed.flown_carry loading (by rw [turns]) (by rw [table]; exact fun _ => id)
      -- A load in another slot is another call's, and only the one that stores is over.
      intro other mem' u claim' at_s _
      rw [running]
      exact ticketed.mem_rest mem' mem (Ticketed.ne_of_slot claim' claim (at_s ▸ e))
  | drop done t error mem claim holds table cell turns running =>
    by_cases e : s = t.slot
    · subst e
      rw [cell, Function.update_self] at loading
      cases loading
    · rw [cell, Function.update_of_ne e] at loading
      apply ticketed.flown_carry loading
      · rw [turns, Function.update_of_ne e]
      · intro j owned
        rw [table]
        exact Cache.getElem?_erase_of_slot_ne (Cache.holds_iff.1 holds).1 owned e
      · intro other mem' u claim' at_s _
        rw [running]
        exact ticketed.mem_rest mem' mem (Ticketed.ne_of_slot claim' claim (at_s ▸ e))
  | discard done outcome mem displaced same turns running =>
    rw [same] at loading
    apply ticketed.flown_carry loading (by rw [turns]) (by rw [same]; exact fun _ => id)
    -- The call that ends has lost its claim, so the load under way is not its own.
    intro other mem' u claim' at_s holds
    rw [running]
    apply ticketed.mem_rest mem' mem
    rintro rfl
    rw [displaced u claim'] at holds
    cases holds
  | delete key c mapped table cell turns running =>
    by_cases e : s = c
    · subst e
      rw [cell, Function.update_self] at loading
      cases loading
    · rw [cell, Function.update_of_ne e] at loading
      apply ticketed.flown_carry loading
      · rw [turns, Function.update_of_ne e]
      · intro j owned
        rw [table]
        exact Cache.getElem?_erase_of_slot_ne mapped owned e
      · intro call mem' _ _ _ _
        exact running ▸ mem'

theorem Stepped.ticketed (h : Stepped σ σ' a r) (ticketed : σ.Ticketed) : σ'.Ticketed := by
  have generation := h.generation ticketed.generation
  have flown := h.flown ticketed
  rcases h.running_cases ticketed with ⟨fewer, calls⟩ | ⟨call, running, id, calls, made⟩
  · refine ⟨generation, (fewer.map Call.id).nodup ticketed.ids, ?_, ?_, ?_, flown⟩
    · intro l hl
      rw [calls]
      exact ticketed.id_lt l (fewer.subset hl)
    · intro l hl t claim
      obtain ⟨stamp, le⟩ := ticketed.stamp l (fewer.subset hl) t claim
      exact ⟨stamp, Nat.le_trans le (h.turns_le t.slot)⟩
    · intro l hl m hm
      exact ticketed.one l (fewer.subset hl) m (fewer.subset hm)
  · have earlier : ∀ l ∈ σ.running, ∀ t u, l.claim = some t → call.claim = some u →
        t.slot = u.slot → l.turn < call.turn := by
      intro l hl t u claim claim' same
      apply Nat.lt_of_le_of_lt (ticketed.stamp l hl t claim).2
      rw [same]
      exact (made u claim').2.1
    refine ⟨generation, ?_, ?_, ?_, ?_, flown⟩
    · rw [running, List.map_cons, List.nodup_cons]
      refine ⟨?_, ticketed.ids⟩
      rw [List.mem_map]
      rintro ⟨l, hl, e⟩
      have lt := ticketed.id_lt l hl
      omega
    · rw [running, calls]
      intro l hl
      rcases List.mem_cons.1 hl with rfl | hl
      · omega
      · exact Nat.lt_succ_of_lt (ticketed.id_lt l hl)
    · rw [running]
      intro l hl t claim
      rcases List.mem_cons.1 hl with rfl | hl
      · exact ⟨(made t claim).1, Nat.le_of_eq (made t claim).2.2⟩
      · obtain ⟨stamp, le⟩ := ticketed.stamp l hl t claim
        exact ⟨stamp, Nat.le_trans le (h.turns_le t.slot)⟩
    · rw [running]
      intro l hl m hm t u claim claim' same turn
      rw [List.mem_cons] at hl hm
      rcases hl with rfl | hl <;> rcases hm with rfl | hm
      · rfl
      · exact absurd turn (Nat.ne_of_gt (earlier m hm u t claim' claim same.symm))
      · exact absurd turn (Nat.ne_of_lt (earlier l hl t u claim claim' same))
      · exact ticketed.one l hl m hm t u claim claim' same turn

end Stepped

structure Sound (σ : Service α) : Prop where
  steady : σ.cache.Steady
  ticketed : σ.Ticketed

theorem Sound.step {σ : Service α} (h : σ.Sound) (a : Action ε α) : (σ.step a).Sound := by
  obtain ⟨steady, stepped⟩ := stepped h.steady a
  exact ⟨steady, stepped.ticketed h.ticketed⟩

theorem Sound.run {σ : Service α} (h : σ.Sound) (as : List (Action ε α)) : (σ.run as).Sound := by
  induction as generalizing σ with
  | nil => exact h
  | cons a as ih => exact ih (h.step a)

theorem ticketed_ofCapacity (n : Nat) : (ofCapacity n : Service α).Ticketed := by
  refine ⟨?_, List.nodup_nil, nofun, nofun, nofun, ?_⟩
  · intro s
    exact congrArg Cell.generation (Cache.cell_ofCapacity n s)
  · intro s loading
    rw [ofCapacity, Cache.cell_ofCapacity] at loading
    cases loading

theorem sound_ofCapacity (n : Nat) : (ofCapacity n : Service α).Sound :=
  ⟨steady_ofCapacity n, ticketed_ofCapacity n⟩

end Service

end Arbiter
