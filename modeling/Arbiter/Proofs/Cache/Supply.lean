import Arbiter.Proofs.Cache.Checked
import Arbiter.Proofs.Cache.Service.History

namespace Arbiter

universe u v

variable {α : Type u} {ε : Type v}

def Slot.Of (n : Nat) (s : Slot) : Prop := 1 ≤ s.index ∧ s.index ≤ n

theorem Slot.of_iff {n : Nat} {s : Slot} : s.Of n ↔ s.offset < n := by
  rw [Of, index]
  omega

namespace Cache

variable {c c' : Cache α} {s : Slot} {key : String}

inductive Obtained (c : Cache α) (s : Slot) (c' : Cache α) : Prop
  | popped (links : Links) (top : c.links.popFree? = some (s, links))
      (left : c' = { c with links })
  | evicted (empty : c.links.popFree? = none) (victim : c.evict? = some (s, c'))

theorem obtained_of_takeSlot? (taken : c.takeSlot? = some (s, c')) : c.Obtained s c' := by
  rw [takeSlot?] at taken
  cases popped : c.links.popFree? with
  | some top =>
    obtain ⟨t, links⟩ := top
    rw [popped] at taken
    cases taken
    exact .popped links popped rfl
  | none =>
    rw [popped] at taken
    exact .evicted popped taken

namespace Steady

theorem lookup_ne_unavailable (h : c.Steady) (positive : 0 < c.capacity) (now : Instant)
    (key : String) : (c.lookup now key).2 ≠ .unavailable := by
  have looked := (h.lookup now key).2
  intro none
  rw [none] at looked
  cases looked with
  | unavailable empty => omega

theorem lookup_obtains (h : c.Steady) (positive : 0 < c.capacity) (now : Instant)
    (unmapped : c.table[key]? = none) : ∃ s c', (c.record .miss).Obtained s c' ∧
      s.Of c.capacity ∧ c.lookup now key = (c'.assign s key).claim s := by
  have available := h.lookup_ne_unavailable positive now key
  rw [Cache.lookup, unmapped] at available ⊢
  dsimp only at available ⊢
  cases taken : (c.record .miss).takeSlot? with
  | none =>
    rw [taken] at available
    exact absurd rfl available
  | some left =>
    obtain ⟨s, c'⟩ := left
    have range := ((h.sized.record .miss).taken taken).1
    exact ⟨s, c', obtained_of_takeSlot? taken, Slot.of_iff.2 range, rfl⟩

theorem enter_ne_bypass (h : c.Steady) (positive : 0 < c.capacity) (now : Instant) (key : String)
    {ttl : Duration} (lasting : ttl.isZero = false) :
    (c.enter now key ttl).2 ≠ .run none := by
  have available := h.lookup_ne_unavailable positive now key
  rw [c.enter_lookup now key lasting]
  generalize c.lookup now key = result at available
  obtain ⟨c', lookup⟩ := result
  cases lookup with
  | unavailable => exact absurd rfl available
  | _ => exact nofun

end Steady

end Cache

namespace Service

namespace Checked

def act (σ : Service α) : Action ε α → Except Breach (Service α × Reply ε α)
  | .enter key ttl =>
    (Cache.Checked.enter σ.cache σ.now key ttl).map fun entered => σ.respond key ttl entered
  | .settle id outcome =>
    match σ.running.find? (·.id == id) with
    | some call =>
      (Cache.Checked.settle σ.cache σ.now call.key call.ttl call.claim outcome).map
        fun (c, result) => ((σ.put c).close call, .served ⟨result, true⟩)
    | none => .ok (σ, .nothing)
  | .delete key =>
    (Cache.Checked.delete σ.cache key).map fun (c, mapped) => (σ.put c, .deleted mapped)
  | .peek key => (Cache.Checked.peek σ.cache σ.now key).map fun value => (σ, .found value)
  | .advance span => .ok (σ.act (.advance span))

end Checked

structure Bounded (n : Nat) (σ : Service α) : Prop where
  owners : σ.cache.owners.capacity = n
  links : σ.cache.links.capacity = n
  cells : σ.cache.cells.capacity = n
  mapped : ∀ (key : String) (s : Slot), σ.cache.table[key]? = some s → s.Of n
  threaded : σ.cache.links.Closed
  claimed : ∀ call ∈ σ.running, ∀ t ∈ call.claim, t.slot.Of n

/-- A lookup that misses has a slot, which it takes off the free stack or from another key, so that
a get with a time to live never bypasses the cache; and no check of a step fails. -/
structure Supplied (ε : Type v) (n : Nat) (σ : Service α) : Prop where
  obtains : ∀ (now : Instant) (key : String), σ.cache.table[key]? = none →
    ∃ s c, (σ.cache.record .miss).Obtained s c ∧ s.Of n ∧
      σ.cache.lookup now key = (c.assign s key).claim s
  available : ∀ (now : Instant) (key : String), (σ.cache.lookup now key).2 ≠ .unavailable
  cached : ∀ (now : Instant) (key : String) (ttl : Duration), ttl.isZero = false →
    (σ.cache.enter now key ttl).2 ≠ .run none
  claims : ∀ call ∈ σ.running, call.ttl.isZero = false → call.claim ≠ none
  bounded : σ.Bounded n
  checked : ∀ a : Action ε α, Checked.act σ a = .ok (σ.act a)
  listed : Cache.Checked.keys σ.cache = .ok σ.cache.keys

section Supplied

variable {σ : Service α} {call : Call} {key : String} {ttl : Duration}

theorem claim_of_runs (runs : σ.reply (.enter key ttl : Action ε α) = .runs call) :
    (σ.cache.enter σ.now key ttl).2 = .run call.claim := by
  rw [reply, act] at runs
  generalize σ.cache.enter σ.now key ttl = entered at runs ⊢
  obtain ⟨c, admission⟩ := entered
  cases admission with
  | run claim =>
    cases runs
    rfl
  | _ => cases runs

theorem act_checked (h : σ.cache.Steady)
    (claimed : ∀ call ∈ σ.running, ∀ t ∈ call.claim, t.slot.offset < σ.cache.capacity)
    (a : Action ε α) : Checked.act σ a = .ok (σ.act a) := by
  cases a with
  | enter key ttl =>
    rw [Checked.act, h.enter_eq]
    rfl
  | settle id outcome =>
    rw [Checked.act, act]
    cases found : σ.running.find? (·.id == id) with
    | none => rfl
    | some call =>
      have range := claimed call (List.mem_of_find?_eq_some found)
      simp only [h.settle_eq σ.now call.key call.ttl range outcome]
      rfl
  | delete key =>
    rw [Checked.act, h.delete_eq]
    rfl
  | peek key =>
    rw [Checked.act, h.peek_eq]
    rfl
  | advance span => rfl

theorem supplied_of_steady (h : σ.cache.Steady) (positive : 0 < σ.cache.capacity)
    (claims : ∀ call ∈ σ.running, call.ttl.isZero = false → call.claim ≠ none)
    (claimed : ∀ call ∈ σ.running, ∀ t ∈ call.claim, t.slot.offset < σ.cache.capacity) :
    σ.Supplied ε σ.cache.capacity where
  obtains now _ := h.lookup_obtains positive now
  available := h.lookup_ne_unavailable positive
  cached now key _ := h.enter_ne_bypass positive now key
  claims := claims
  bounded := {
    owners := h.owners_capacity
    links := h.links_capacity
    cells := rfl
    mapped := fun _ _ mapped => Slot.of_iff.2 (h.lt_of_mapped mapped)
    threaded := h.threads.closed
    claimed := fun call mem t claim => Slot.of_iff.2 (claimed call mem t claim)
  }
  checked := act_checked h claimed
  listed := h.sized.keys_eq

end Supplied

section Run

variable {n : Nat} {as : List (Action ε α)} {call : Call} {t : Ticket}

theorem lt_of_claim (mem : call ∈ ((ofCapacity n : Service α).run as).running)
    (claim : call.claim = some t) : t.slot.offset < n := by
  obtain ⟨before, during, -, runs⟩ := started mem
  have sound := (sound_ofCapacity (α := α) n).run before
  obtain ⟨-, -, -, holds⟩ := holds_of_claim sound runs claim
  have range := (sound.step _).steady.lt_of_mapped (Cache.holds_iff.1 holds).1
  rwa [capacity_step, capacity_run_ofCapacity] at range

theorem claim_of_lasting (positive : 0 < n)
    (mem : call ∈ ((ofCapacity n : Service α).run as).running)
    (lasting : call.ttl.isZero = false) : call.claim ≠ none := by
  obtain ⟨before, during, -, runs⟩ := started mem
  have steady := steady_run (steady_ofCapacity (α := α) n) before
  rw [← capacity_run_ofCapacity (α := α) n before] at positive
  have admitted := steady.enter_ne_bypass positive
    ((ofCapacity n : Service α).run before).now call.key lasting
  rw [claim_of_runs runs] at admitted
  rintro none
  exact admitted (congrArg _ none)

/-- Whatever is asked of a cache with slots, in whatever order, every claim finds a slot. -/
theorem supplied_run (n : Nat) (as : List (Action ε α)) :
    ((ofCapacity (n + 1)).run as).Supplied ε (n + 1) := by
  have capacity := capacity_run_ofCapacity (α := α) (n + 1) as
  have supplied := supplied_of_steady (ε := ε) (steady_run (steady_ofCapacity (α := α) (n + 1)) as)
    (by rw [capacity]; exact n.succ_pos) (fun call mem => claim_of_lasting n.succ_pos mem)
    (fun call mem t claim => by rw [capacity]; exact lt_of_claim mem claim)
  rwa [capacity] at supplied

example : ((ofCapacity 1 : Service Nat).run [(.enter "a" ⟨5⟩ : Action String Nat)]).reply
    (.enter "b" ⟨5⟩ : Action String Nat) = .runs ⟨1, "b", ⟨5⟩, some ⟨⟨0⟩, 3⟩, 3⟩ := rfl

end Run

end Service

end Arbiter
