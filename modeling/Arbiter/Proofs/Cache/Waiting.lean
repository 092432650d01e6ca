import Arbiter.Proofs.Cache.Singleflight

/-!
Gets that wait. A get whose key is in flight has read which load that is; in a step of its own it
looks at the slot again, and sleeps there while the load goes on, until a step at the cache wakes
the sleepers of the slot. Nobody sleeps on a load that is over.
-/

namespace Arbiter

universe u v

variable {α : Type u} {ε : Type v}

namespace Cache

/-- The slot whose sleepers a lookup wakes: the one it evicts, which then loads for another key. -/
def lookupWakes? (c : Cache α) (key : String) : Option Slot :=
  match c.table[key]?, c.links.popFree? with
  | none, none => c.evict?.map Prod.fst
  | _, _ => none

def enterWakes? (c : Cache α) (key : String) (ttl : Duration) : Option Slot :=
  if ttl.isZero then none else c.lookupWakes? key

def completeWakes? (c : Cache α) (key : String) (claim : Ticket) : Option Slot :=
  if c.holds key claim then some claim.slot else none

def deleteWakes? (c : Cache α) (key : String) : Option Slot := c.table[key]?

section Lookup

variable {c c' : Cache α} {now : Instant} {key owner : String} {s : Slot} {l : Lookup α}

theorem Steady.lookupWakes?_victim (h : c.Steady) (unmapped : c.table[key]? = none)
    (full : c.links.freeStack = []) (victim : c.victim? = some s) :
    c.lookupWakes? key = some s := by
  rw [Steady, full] at h
  rw [lookupWakes?, unmapped, h.threads.popFree?_nil, evict?, victim]
  rfl

theorem kept_or_wakes_of_update {cells cells' : Slot → Cell α} {t : Slot} {x : Cell α}
    {wakes : Option Slot} (update : cells' = Function.update cells t x) (woken : wakes = some t)
    (s : Slot) : cells' s = cells s ∨ wakes = some s := by
  by_cases e : s = t
  · exact .inr (e ▸ woken)
  · rw [update, Function.update_of_ne e]
    exact .inl rfl

theorem Looked.kept_or_wakes (h : c.Steady) (looked : Looked c now key c' l)
    (loading : (c.cell s).content = .loading) :
    c'.cell s = c.cell s ∨ c.lookupWakes? key = some s := by
  have untouched {t : Slot} {x : Cell α} (cell : c'.cell = Function.update c.cell t x)
      (idle : (c.cell t).content ≠ .loading) : c'.cell s = c.cell s := by
    rw [cell, Function.update_of_ne]
    rintro rfl
    exact idle loading
  cases looked with
  | inFlight _ _ _ same => exact .inl (by rw [same])
  | hit _ _ _ _ _ _ shows => exact .inl (by rw [shows.cell])
  | reload t _ _ _ stored _ shows => exact .inl (untouched shows.cell (by rw [stored]; exact nofun))
  | fill t free _ top shows =>
    refine .inl (untouched shows.cell ?_)
    rw [h.content_of_free (top ▸ List.mem_cons_self)]
    exact nofun
  | evict t _ unmapped full victim _ shows =>
    exact kept_or_wakes_of_update shows.cell (h.lookupWakes?_victim unmapped full victim) s
  | unavailable _ same => exact .inl (by rw [same]; rfl)

theorem Looked.wakes_evicted (h : c.Steady) (looked : Looked c now key c' l)
    (owned : c.table[owner]? = some s) (gone : c'.table[owner]? = none) :
    c.lookupWakes? key = some s := by
  have changed : c'.table ≠ c.table := by
    intro same
    rw [same, owned] at gone
    cases gone
  cases looked with
  | inFlight _ _ _ same => exact absurd (by rw [same]) changed
  | hit _ _ _ _ _ _ shows => exact absurd shows.table changed
  | reload _ _ _ _ _ _ shows => exact absurd shows.table changed
  | fill t free unmapped top shows =>
    have ne : owner ≠ key := by
      rintro rfl
      rw [unmapped] at owned
      cases owned
    rw [shows.table, getElem?_insert_of_ne ne, owned] at gone
    cases gone
  | evict t old unmapped full victim owned' shows =>
    have ne : owner ≠ key := by
      rintro rfl
      rw [unmapped] at owned
      cases owned
    rw [shows.table, getElem?_insert_of_ne ne] at gone
    by_cases e : s = t
    · exact e ▸ h.lookupWakes?_victim unmapped full victim
    · rw [getElem?_erase_of_slot_ne owned' owned e] at gone
      cases gone
  | unavailable _ same => exact absurd (by rw [same]; rfl) changed

end Lookup

end Cache

namespace Service

def wakes? (σ : Service α) : Action ε α → Option Slot
  | .enter key ttl => σ.cache.enterWakes? key ttl
  | .settle id _ =>
    (σ.running.find? (·.id == id)).bind fun call =>
      call.claim.bind (σ.cache.completeWakes? call.key)
  | .delete key => σ.cache.deleteWakes? key
  | .peek _ | .advance _ => none

inductive Ends (t : Ticket) (σ : Service α) : Action ε α → Prop
  | settle (call : Call) (outcome : Except (LoadError ε) α) (current : σ.Current call)
      (claim : call.claim = some t) : Ends t σ (.settle call.id outcome)
  | delete (key : String) (holds : σ.cache.holds key t = true) : Ends t σ (.delete key)
  | evict (owner : String) (a : Action ε α) (evicts : Evicts owner t.slot σ a) : Ends t σ a

section Wakes

variable {σ : Service α} {a : Action ε α} {key : String} {ttl : Duration} {call : Call}
  {t : Ticket} {s : Slot}

theorem looked_enter (steady : σ.cache.Steady) (key : String) {ttl : Duration}
    (positive : ttl.isZero = false) : ∃ c l, Cache.Looked σ.cache σ.now key c l ∧
      (σ.step (.enter key ttl : Action ε α)).cache.table = c.table ∧
      (σ.step (.enter key ttl : Action ε α)).cache.cell = c.cell := by
  have looked := (steady.lookup σ.now key).2
  refine ⟨_, _, looked, ?_⟩
  rw [step, act, σ.cache.enter_lookup σ.now key positive]
  cases σ.cache.lookup σ.now key with
  | mk c l => cases l <;> exact ⟨rfl, rfl⟩

theorem wakes?_enter (positive : ttl.isZero = false) :
    σ.wakes? (.enter key ttl : Action ε α) = σ.cache.lookupWakes? key := by
  rw [wakes?, Cache.enterWakes?, positive]
  rfl

theorem wakes?_settle (ticketed : σ.Ticketed) (mem : call ∈ σ.running)
    (claim : call.claim = some t) (holds : σ.cache.holds call.key t = true)
    (outcome : Except (LoadError ε) α) : σ.wakes? (.settle call.id outcome) = some t.slot := by
  rw [wakes?, ticketed.find?_eq mem, Option.bind_some, claim, Option.bind_some,
    Cache.completeWakes?, if_pos holds]

theorem kept_or_wakes (sound : σ.Sound) (a : Action ε α)
    (loading : (σ.cache.cell s).content = .loading) :
    (σ.step a).cache.cell s = σ.cache.cell s ∨ σ.wakes? a = some s := by
  cases a with
  | enter key ttl =>
    cases zero : ttl.isZero with
    | true =>
      rw [step, act, σ.cache.enter_bypass σ.now key zero]
      exact .inl rfl
    | false =>
      obtain ⟨c, l, looked, -, cell⟩ := looked_enter (ε := ε) sound.steady key zero
      rw [cell, wakes?_enter zero]
      exact looked.kept_or_wakes sound.steady loading
  | settle id outcome =>
    have stepped := (stepped sound.steady (.settle id outcome)).2
    generalize σ.step (.settle id outcome) = σ' at stepped ⊢
    generalize σ.reply (.settle id outcome) = r at stepped
    cases stepped with
    | read _ _ _ _ _ cell => exact .inl (by rw [cell])
    | store call t value mem claim holds _ cell =>
      exact Cache.kept_or_wakes_of_update cell (wakes?_settle sound.ticketed mem claim holds _) s
    | drop call t error mem claim holds _ cell =>
      exact Cache.kept_or_wakes_of_update cell (wakes?_settle sound.ticketed mem claim holds _) s
    | discard _ _ _ _ same => exact .inl (by rw [same]; rfl)
  | delete key =>
    have stepped := (stepped sound.steady (.delete key : Action ε α)).2
    generalize σ.step (.delete key : Action ε α) = σ' at stepped ⊢
    generalize σ.reply (.delete key : Action ε α) = r at stepped
    cases stepped with
    | read _ _ _ _ _ cell => exact .inl (by rw [cell])
    | delete _ t mapped _ cell => exact Cache.kept_or_wakes_of_update cell mapped s
  | peek key => exact .inl rfl
  | advance span =>
    rw [step, act]
    cases σ.now.add? span <;> exact .inl rfl

theorem Ends.wakes (sound : σ.Sound) (ends : Ends t σ a) : σ.wakes? a = some t.slot := by
  cases ends with
  | settle call outcome current claim =>
    exact wakes?_settle sound.ticketed current.1 claim (current.holds claim) outcome
  | delete key holds => exact (Cache.holds_iff.1 holds).1
  | evict owner a evicts =>
    obtain ⟨⟨key, ttl, rfl⟩, owned, gone⟩ := evicts
    cases zero : ttl.isZero with
    | true =>
      rw [step, act, σ.cache.enter_bypass σ.now key zero] at gone
      change σ.cache.table[owner]? = none at gone
      rw [owned] at gone
      cases gone
    | false =>
      obtain ⟨c, l, looked, table, -⟩ := looked_enter (ε := ε) sound.steady key zero
      rw [table] at gone
      rw [wakes?_enter zero]
      exact looked.wakes_evicted sound.steady owned gone

end Wakes

end Service

structure Waiter where
  key : String
  ttl : Duration
  load : Ticket
  asleep : Bool
  deriving DecidableEq, Repr

namespace Waiter

def wake (s? : Option Slot) (w : Waiter) : Waiter :=
  if s? = some w.load.slot then { w with asleep := false } else w

def arriving : Action ε α → Reply ε α → List Waiter
  | .enter key ttl, .waits load => [⟨key, ttl, load, false⟩]
  | _, _ => []

theorem awake_of_arriving {a : Action ε α} {r : Reply ε α} {w : Waiter} (mem : w ∈ arriving a r) :
    w.asleep = false := by
  unfold arriving at mem
  split at mem
  · rw [List.mem_singleton.1 mem]
  · cases mem

end Waiter

structure Room (α : Type u) where
  service : Service α
  waiters : List Waiter

inductive Move (ε : Type v) (α : Type u) where
  | act (a : Action ε α)
  | check (i : Nat)

namespace Room

def ofCapacity (n : Nat) : Room α := ⟨.ofCapacity n, []⟩

def act (ρ : Room α) (a : Action ε α) : Room α where
  service := ρ.service.step a
  waiters := ρ.waiters.map (.wake (ρ.service.wakes? a)) ++ Waiter.arriving a (ρ.service.reply a)

/-- A waiter whose load is over leaves; its next lookup is an entry like any other. -/
def check (ρ : Room α) (i : Nat) : Room α :=
  match ρ.waiters[i]? with
  | some w =>
    if w.asleep then ρ
    else if (ρ.service.cache.cell w.load.slot).isLoading w.load.generation then
      { ρ with waiters := ρ.waiters.set i { w with asleep := true } }
    else { ρ with waiters := ρ.waiters.eraseIdx i }
  | none => ρ

def step (ρ : Room α) : Move ε α → Room α
  | .act a => ρ.act a
  | .check i => ρ.check i

def run (ρ : Room α) (ms : List (Move ε α)) : Room α := ms.foldl step ρ

structure Awaiting (ρ : Room α) : Prop where
  sound : ρ.service.Sound
  loading : ∀ w ∈ ρ.waiters, w.asleep = true →
    (ρ.service.cache.cell w.load.slot).isLoading w.load.generation = true

section Sleepers

variable {ρ : Room α} {w : Waiter} {a : Action ε α} {i : Nat}

theorem mem_act (mem : w ∈ (ρ.act a).waiters) (asleep : w.asleep = true) :
    w ∈ ρ.waiters ∧ ρ.service.wakes? a ≠ some w.load.slot := by
  rw [act, List.mem_append, List.mem_map] at mem
  rcases mem with ⟨w', mem, rfl⟩ | mem
  · rw [Waiter.wake] at asleep ⊢
    split at asleep
    · cases asleep
    · rw [if_neg ‹_›]
      exact ⟨mem, ‹_›⟩
  · rw [Waiter.awake_of_arriving mem] at asleep
    cases asleep

theorem mem_check (mem : w ∈ (ρ.check i).waiters) : w ∈ ρ.waiters ∨
    (ρ.service.cache.cell w.load.slot).isLoading w.load.generation = true := by
  rw [check] at mem
  split at mem
  · split at mem
    · exact .inl mem
    · split at mem
      · rcases List.mem_or_eq_of_mem_set mem with mem | rfl
        · exact .inl mem
        · exact .inr ‹_›
      · exact .inl (List.mem_of_mem_eraseIdx mem)
  · exact .inl mem

theorem service_check (ρ : Room α) (i : Nat) : (ρ.check i).service = ρ.service := by
  rw [check]
  split
  · split
    · rfl
    · split <;> rfl
  · rfl

theorem Awaiting.act (h : ρ.Awaiting) (a : Action ε α) : (ρ.act a).Awaiting := by
  refine ⟨h.sound.step a, fun w mem asleep => ?_⟩
  obtain ⟨mem, unwoken⟩ := mem_act mem asleep
  have loading := h.loading w mem asleep
  have content := (Cache.isLoading_iff.1 loading).1
  have kept := (Service.kept_or_wakes h.sound a content).resolve_right unwoken
  rw [Room.act, kept]
  exact loading

theorem Awaiting.check (h : ρ.Awaiting) (i : Nat) : (ρ.check i).Awaiting := by
  constructor
  · rw [service_check]
    exact h.sound
  · intro w mem asleep
    rw [service_check]
    rcases mem_check mem with mem | loading
    · exact h.loading w mem asleep
    · exact loading

theorem Awaiting.run (h : ρ.Awaiting) (ms : List (Move ε α)) : (ρ.run ms).Awaiting := by
  induction ms generalizing ρ with
  | nil => exact h
  | cons m ms ih =>
    cases m with
    | act a => exact ih (h.act a)
    | check i => exact ih (h.check i)

theorem Awaiting.current (h : ρ.Awaiting) (mem : w ∈ ρ.waiters) (asleep : w.asleep = true) :
    ∃ call, ρ.service.Current call ∧ call.claim = some w.load := by
  obtain ⟨loading, generation⟩ := Cache.isLoading_iff.1 (h.loading w mem asleep)
  obtain ⟨call, current, t, claim, at_slot⟩ := h.sound.current_of_loading loading
  have generation' := (Cache.holds_iff.1 (current.holds claim)).2.2
  rw [at_slot, generation] at generation'
  refine ⟨call, current, ?_⟩
  rw [claim]
  exact congrArg some (congrArg₂ Ticket.mk at_slot generation'.symm)

theorem Awaiting.awake_of_ends (h : ρ.Awaiting) {t : Ticket}
    (ends : Service.Ends t ρ.service a) (mem : w ∈ (ρ.act a).waiters)
    (same : w.load.slot = t.slot) : w.asleep = false := by
  rw [← Bool.not_eq_true]
  intro asleep
  refine (mem_act mem asleep).2 ?_
  rw [same]
  exact ends.wakes h.sound

theorem awaiting_ofCapacity (n : Nat) : (ofCapacity n : Room α).Awaiting :=
  ⟨Service.sound_ofCapacity n, nofun⟩

end Sleepers

/-- No wake-up is lost. Whoever sleeps does so for a load that is under way and whose call has yet
to end it; a step that ends a load leaves nobody asleep on its slot, also where another load begins
there in the same step. -/
theorem sleepers_run (n : Nat) (ms : List (Move ε α)) :
    (∀ w ∈ ((ofCapacity n).run ms).waiters, w.asleep = true →
      (((ofCapacity n).run ms).service.cache.cell w.load.slot).isLoading w.load.generation = true ∧
      ∃ call, ((ofCapacity n).run ms).service.Current call ∧ call.claim = some w.load) ∧
    ∀ (t : Ticket) (a : Action ε α), Service.Ends t ((ofCapacity n).run ms).service a →
      ∀ w ∈ (((ofCapacity n).run ms).act a).waiters, w.load.slot = t.slot → w.asleep = false := by
  have awaiting := (awaiting_ofCapacity (α := α) n).run ms
  constructor
  · exact fun w mem asleep => ⟨awaiting.loading w mem asleep, awaiting.current mem asleep⟩
  · exact fun t a ends w mem => awaiting.awake_of_ends ends mem

def asleepOnA : List (Move String Nat) :=
  [.act (.enter "a" ⟨5⟩), .act (.enter "a" ⟨3⟩), .check 0]

theorem evicted_load_wakes :
    ((ofCapacity 1).run asleepOnA : Room Nat).waiters = [⟨"a", ⟨3⟩, ⟨⟨0⟩, 1⟩, true⟩] ∧
    (∃ call, ((ofCapacity 1).run asleepOnA : Room Nat).service.Current call ∧
      call.claim = some ⟨⟨0⟩, 1⟩) ∧
    (((ofCapacity 1).run asleepOnA : Room Nat).act
      (.enter "b" ⟨5⟩ : Action String Nat)).service.cache.cell ⟨0⟩ = ⟨.loading, 3⟩ ∧
    ∀ w ∈ (((ofCapacity 1).run asleepOnA : Room Nat).act
      (.enter "b" ⟨5⟩ : Action String Nat)).waiters, w.load.slot = ⟨0⟩ → w.asleep = false := by
  obtain ⟨sleeping, waking⟩ := sleepers_run 1 asleepOnA
  have waiters : ((ofCapacity 1).run asleepOnA : Room Nat).waiters =
      [⟨"a", ⟨3⟩, ⟨⟨0⟩, 1⟩, true⟩] := rfl
  refine ⟨waiters, (sleeping _ (waiters ▸ List.mem_singleton_self _) rfl).2, rfl, ?_⟩
  exact waking ⟨⟨0⟩, 1⟩ _ (.evict "a" _ ⟨⟨"b", ⟨5⟩, rfl⟩, rfl, rfl⟩)

end Room

end Arbiter
