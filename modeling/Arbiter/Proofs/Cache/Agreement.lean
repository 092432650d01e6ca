import Arbiter.Proofs.Cache.Counting
import Arbiter.Proofs.Cache.Rollback
import Mathlib.Data.UInt

namespace Arbiter

def Counters.ended (c : Counters) : UInt64 := c.loads + c.failures

namespace Cache

universe u v

variable {α : Type u} {ε : Type v}

/-- A get of `key` that leads from `c` to `c'`, against peeks before and after it. Its own loader
comes to `own`. -/
structure Agrees (c : Cache α) (now : Instant) (key : String) (own : Except (LoadError ε) α)
    (c' : Cache α) (served : Option (Served ε α)) : Prop where
  fresh : ∀ value, c.peek now key = some value → served = some ⟨.ok value, false⟩ ∧
    c'.table = c.table ∧ c'.cell = c.cell ∧ c'.counters.ended = c.counters.ended
  stale : c.peek now key = none → served = some ⟨own, true⟩ ∧
    c'.counters.ended = c.counters.ended + 1
  ok : ∀ value called, served = some ⟨.ok value, called⟩ →
    c'.peek now key = some value ∧ c'.keys.head? = some key
  error : ∀ error called, served = some ⟨.error error, called⟩ →
    c'.peek now key = none ∧ c'.contains key = false

variable {c c' : Cache α} {key : String} {s : Slot} {value : α} {expiry : Expiry} {now : Instant}
  {ttl : Duration} {load : String → Except (LoadError ε) α} {outcome : Except (LoadError ε) α}

section Peek

theorem peek_unmapped (unmapped : c.table[key]? = none) : c.peek now key = none := by
  rw [peek, unmapped]
  rfl

theorem peek_stored (mapped : c.table[key]? = some s)
    (stored : (c.cell s).content = .stored value expiry) :
    c.peek now key = if expiry.isFresh now then some value else none := by
  rw [peek_mapped mapped, stored]
  rfl

theorem Looked.peek_eq_none {claim : Ticket} (looked : Looked c now key c' (.claimed claim)) :
    c.peek now key = none := by
  cases looked with
  | reload s value expiry mapped stored stale =>
    rw [peek_stored mapped stored, stale]
    rfl
  | fill _ _ unmapped => exact peek_unmapped unmapped
  | evict _ _ unmapped => exact peek_unmapped unmapped

theorem isFresh_after_self (positive : ttl.isZero = false) :
    (Expiry.after now ttl).isFresh now = true := by
  rw [Expiry.isFresh_after]
  rw [Duration.isZero, beq_eq_false_iff_ne] at positive
  omega

end Peek

section Counters

theorem ended_loadEvent (counters : Counters) (outcome : Except (LoadError ε) α) :
    (counters.record (loadEvent outcome)).ended = counters.ended + 1 := by
  unfold Counters.ended
  cases outcome with
  | ok value => exact add_right_comm counters.loads 1 counters.failures
  | error error => exact (add_assoc counters.loads counters.failures 1).symm

theorem Counted.ended {lookup : Lookup α} (counted : Counted c key c' lookup) :
    c'.counters.ended = c.counters.ended := by
  cases counted with
  | inFlight _ same => rw [same]
  | unavailable _ same =>
    rw [same]
    rfl
  | hit _ counters | reload _ _ counters | fill _ _ counters | evict _ _ counters =>
    rw [counters]
    rfl

end Counters

section Get

theorem Steady.settled (h : c.Steady) {generation : UInt64} (mapped : c.table[key]? = some s)
    (cell : c.cell s = ⟨.loading, generation⟩) (now : Instant) (ttl : Duration)
    (outcome : Except (LoadError ε) α) :
    (c.settle now key ttl (some ⟨s, generation⟩) outcome).1.Steady ∧
      c.Settled now key s ttl (c.settle now key ttl (some ⟨s, generation⟩) outcome).1 outcome := by
  have counted := (Coherent.record h (loadEvent outcome)).steady
  obtain ⟨steady, completed⟩ := counted.complete now key ⟨s, generation⟩ ttl outcome
  refine ⟨steady, ?_⟩
  cases completed with
  | settled _ settled => cases outcome <;> exact settled
  | displaced displaced =>
    have holds : c.holds key ⟨s, generation⟩ = true := by
      rw [holds_iff, cell]
      exact ⟨mapped, rfl, rfl⟩
    cases holds.symm.trans displaced

theorem Steady.peek_of_store (h : c.Steady) (h' : c'.Steady) (positive : ttl.isZero = false)
    (mapped : c.table[key]? = some s)
    (stored : c'.Shows c.table
      (Function.update c.cell s ((c.cell s).store value (.after now ttl)))
      (s :: c.links.recency.erase s) c.links.freeStack) :
    c'.peek now key = some value ∧ c'.keys.head? = some key := by
  constructor
  · rw [peek_mapped (stored.table ▸ mapped), stored.cell, Function.update_self, Cell.store,
      Content.fresh?, if_pos (isFresh_after_self positive)]
  · rw [stored.keys_touch h h' mapped]
    rfl

theorem Steady.agrees_of_hit (h : c.Steady) (h' : c'.Steady) (own : Except (LoadError ε) α)
    (mapped : c.table[key]? = some s) (stored : (c.cell s).content = .stored value expiry)
    (fresh : expiry.isFresh now = true) (counters : c'.counters.ended = c.counters.ended)
    (shows : c'.Shows c.table c.cell (s :: c.links.recency.erase s) c.links.freeStack) :
    c.Agrees now key own c' (some ⟨.ok value, false⟩) := by
  have shown : c.peek now key = some value := by rw [peek_stored mapped stored, if_pos fresh]
  have still : c'.peek now key = some value := by rw [← shown, peek, peek, shows.table, shows.cell]
  refine ⟨?_, ?_, ?_, ?_⟩
  · intro value' shown'
    rw [shown] at shown'
    cases shown'
    exact ⟨rfl, shows.table, shows.cell, counters⟩
  · intro stale
    cases shown.symm.trans stale
  · rintro _ _ ⟨⟩
    refine ⟨still, ?_⟩
    rw [shows.keys_touch h h' mapped]
    rfl
  · intro error called served
    cases served

theorem Steady.agrees_of_settle {ended : Cache α} (h : c'.Steady) {generation : UInt64}
    (positive : ttl.isZero = false) (stale : c.peek now key = none)
    (counters : c'.counters.ended = c.counters.ended) (mapped : c'.table[key]? = some s)
    (cell : c'.cell s = ⟨.loading, generation⟩) (outcome : Except (LoadError ε) α)
    (ends : ended = (c'.settle now key ttl (some ⟨s, generation⟩) outcome).1) :
    c.Agrees now key outcome ended (some ⟨outcome, true⟩) := by
  obtain ⟨steady, settled⟩ := h.settled mapped cell now ttl outcome
  rw [← ends] at steady settled
  refine ⟨?_, ?_, ?_, ?_⟩
  · intro value shown
    cases stale.symm.trans shown
  · refine fun _ => ⟨rfl, ?_⟩
    rw [ends, counters_settle, ended_loadEvent, counters]
  · rintro value _ ⟨⟩
    exact h.peek_of_store steady positive mapped settled
  · rintro error _ ⟨⟩
    have gone := Shows.erased settled
    exact ⟨peek_unmapped gone, contains_of_unmapped gone⟩

theorem Steady.get_agrees (h : c.Steady) (positive : ttl.isZero = false) (slots : c.capacity ≠ 0)
    (idle : ¬ c.Loading key) (load : String → Except (LoadError ε) α) :
    c.Agrees now key (load key) (c.get now key ttl load).1 (c.get now key ttl load).2 := by
  obtain ⟨steady, looked⟩ := h.lookup now key
  have counters := (h.counted now key).ended
  rw [get, c.enter_lookup now key positive]
  generalize c.lookup now key = result at *
  obtain ⟨c', lookup⟩ := result
  dsimp only at *
  cases lookup with
  | hit value =>
    cases looked with
    | hit s _ expiry mapped stored fresh shows =>
      exact h.agrees_of_hit steady _ mapped stored fresh counters shows
  | inFlight _ =>
    cases looked with
    | inFlight s mapped loading => exact absurd ⟨s, mapped, loading⟩ idle
  | claimed claim =>
    have stale := looked.peek_eq_none
    obtain ⟨s, lag, claimed, rfl⟩ := looked.claimed h
    have cell := congrFun claimed.cell s
    rw [Function.update_self] at cell
    simp only [admitted, settle_snd]
    exact steady.agrees_of_settle positive stale counters claimed.mapped cell _ rfl
  | unavailable =>
    cases looked with
    | unavailable empty => exact absurd empty slots

theorem get_bypass (c : Cache α) (now : Instant) (key : String)
    (load : String → Except (LoadError ε) α) (zero : ttl.isZero = true) :
    c.get now key ttl load =
      ({ c with counters := (c.counters.record .bypass).record (loadEvent (load key)) },
        some ⟨load key, true⟩) := by
  rw [get, c.enter_bypass now key zero]
  rfl

end Get

/-- In every state that any number of callers lead to, and whatever loads are under way beside it,
a get of a key that is not loading agrees with peeks before and after it. A get without a time to
live runs its loader and leaves all but the counters, whatever the state of its key. -/
theorem get_agrees_with_peek (n : Nat) (as : List (Action ε α)) (key : String) (ttl : Duration)
    (load : String → Except (LoadError ε) α) (σ : Service α)
    (ran : σ = (Service.ofCapacity (n + 1)).run as) :
    (ttl.isZero = false → ¬ σ.cache.Loading key →
      σ.cache.Agrees σ.now key (load key) (σ.cache.get σ.now key ttl load).1
        (σ.cache.get σ.now key ttl load).2) ∧
    (ttl.isZero = true → σ.cache.get σ.now key ttl load =
      ({ σ.cache with counters := (σ.cache.counters.record .bypass).record (loadEvent (load key)) },
        some ⟨load key, true⟩)) := by
  subst ran
  constructor
  · intro positive idle
    have slots := (Service.capacity_run_ofCapacity (α := α) (n + 1) as).trans_ne n.succ_ne_zero
    exact (Service.steady_run (Service.steady_ofCapacity (n + 1)) as).get_agrees positive slots
      idle load
  · exact get_bypass _ _ key load

def lateA : Service Nat :=
  (Service.ofCapacity 2).run
    ([.enter "a" ⟨5⟩, .settle 0 (.ok 7), .enter "b" ⟨5⟩, .advance ⟨5⟩] :
      List (Action String Nat))

def loadEight (_ : String) : Except (LoadError String) Nat := .ok 8

theorem expired_get_agrees :
    lateA.cache.peek lateA.now "a" = none ∧
      (lateA.cache.get lateA.now "a" ⟨3⟩ loadEight).2 = some ⟨.ok 8, true⟩ ∧
      (lateA.cache.get lateA.now "a" ⟨3⟩ loadEight).1.peek lateA.now "a" = some 8 ∧
      (lateA.cache.get lateA.now "a" ⟨0⟩ loadEight).1.keys = lateA.cache.keys := by
  have stale : lateA.cache.peek lateA.now "a" = none := by decide
  have idle : ¬ lateA.cache.Loading "a" := by
    rw [loading_iff (s := ⟨0⟩) (by decide)]
    decide
  have agrees := (get_agrees_with_peek 1 _ "a" ⟨3⟩ loadEight lateA rfl).1 rfl idle
  have bypass := (get_agrees_with_peek 1 _ "a" ⟨0⟩ loadEight lateA rfl).2 rfl
  have served := (agrees.stale stale).1
  refine ⟨stale, served, (agrees.ok 8 true served).1, ?_⟩
  rw [bypass]
  rfl

end Cache

end Arbiter
