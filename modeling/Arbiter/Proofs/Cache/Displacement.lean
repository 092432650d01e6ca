import Arbiter.Proofs.Cache.Service.History

namespace Arbiter

universe u v

variable {α : Type u} {ε : Type v}

namespace Service

section Settle

variable {σ : Service α} {call : Call} {t : Ticket}

theorem settled_or_kept (sound : σ.Sound) (mem : call ∈ σ.running) (claim : call.claim = some t)
    (outcome : Except (LoadError ε) α) :
    (σ.cache.holds call.key t = true ∧ σ.cache.Settled σ.now call.key t.slot call.ttl
      (σ.step (.settle call.id outcome)).cache outcome) ∨
    (σ.cache.holds call.key t = false ∧
      (σ.step (.settle call.id outcome)).cache = σ.cache.record (Cache.loadEvent outcome)) := by
  have counted := (Cache.Coherent.record sound.steady (Cache.loadEvent outcome)).steady
  have completed := (counted.complete σ.now call.key t call.ttl outcome).2
  have settled : (σ.step (.settle call.id outcome)).cache = ((σ.cache.record
      (Cache.loadEvent outcome)).complete σ.now call.key t call.ttl outcome).1 := by
    rw [step, sound.ticketed.act_settle mem]
    simp only [Cache.settle, claim]
    rfl
  rw [← settled] at completed
  cases completed with
  | settled holds settled => exact .inl ⟨holds, by cases outcome <;> exact settled⟩
  | displaced displaced same => exact .inr ⟨displaced, same⟩

theorem kept_of_unclaimed (sound : σ.Sound) (mem : call ∈ σ.running) (claim : call.claim = none)
    (outcome : Except (LoadError ε) α) :
    (σ.step (.settle call.id outcome)).cache = σ.cache.record (Cache.loadEvent outcome) := by
  rw [step, sound.ticketed.act_settle mem]
  simp only [Cache.settle, claim]
  rfl

theorem settled_of_holds (sound : σ.Sound) (mem : call ∈ σ.running) (claim : call.claim = some t)
    (holds : σ.cache.holds call.key t = true) (outcome : Except (LoadError ε) α) :
    σ.cache.Settled σ.now call.key t.slot call.ttl
      (σ.step (.settle call.id outcome)).cache outcome := by
  rcases settled_or_kept sound mem claim outcome with ⟨-, settled⟩ | ⟨displaced, -⟩
  · exact settled
  · rw [holds] at displaced
    cases displaced

theorem kept_of_not_holds (sound : σ.Sound) (mem : call ∈ σ.running) (claim : call.claim = some t)
    (displaced : σ.cache.holds call.key t = false) (outcome : Except (LoadError ε) α) :
    (σ.step (.settle call.id outcome)).cache = σ.cache.record (Cache.loadEvent outcome) := by
  rcases settled_or_kept sound mem claim outcome with ⟨holds, -⟩ | ⟨-, same⟩
  · rw [displaced] at holds
    cases holds
  · exact same

end Settle

section Displaced

variable {σ : Service α} {call : Call} {key : String} {t : Ticket} {a : Action ε α}

theorem turns_le_run (sound : σ.Sound) (as : List (Action ε α)) (s : Slot) :
    σ.turns s ≤ (σ.run as).turns s := by
  induction as generalizing σ with
  | nil => exact Nat.le_refl _
  | cons a as ih =>
    exact Nat.le_trans ((stepped sound.steady a).2.turns_le s) (ih (sound.step a))

theorem turns_lt_of_displaces (steady : σ.cache.Steady) (h : Displaces key t σ a) :
    σ.turns t.slot < (σ.step a).turns t.slot := by
  rcases h with ⟨holds, rfl, deleted⟩ | ⟨owner, ⟨other, ttl, rfl⟩, owned, unmapped⟩
  · have stepped := (stepped steady (.delete key : Action ε α)).2
    rw [deleted] at stepped
    have mapped := (Cache.holds_iff.1 holds).1
    cases stepped with
    | read _ _ _ kept => exact absurd rfl kept
    | delete _ s mapped' _ _ turns =>
      rw [mapped] at mapped'
      cases mapped'
      rw [turns, Function.update_self]
      exact Nat.lt_succ_self _
  · have stepped := (stepped steady (.enter other ttl : Action ε α)).2
    generalize σ.step (.enter other ttl : Action ε α) = σ' at stepped unmapped ⊢
    generalize σ.reply (.enter other ttl : Action ε α) = r at stepped
    cases stepped with
    | read _ _ _ _ table =>
      rw [table, owned] at unmapped
      cases unmapped
    | bypass _ _ _ _ table =>
      rw [table, owned] at unmapped
      cases unmapped
    | claim _ _ s lag _ _ claimed turns =>
      have ne : owner ≠ other := by
        rintro rfl
        rw [claimed.mapped] at unmapped
        cases unmapped
      have same : t.slot = s := by
        by_contra elsewhere
        rw [(claimed.others owner ne t.slot).2 ⟨owned, elsewhere⟩] at unmapped
        cases unmapped
      have moved := claimed.small
      rw [turns, same, Function.update_self]
      omega

theorem turn_lt_of_displaced (sound : σ.Sound) (le : call.turn ≤ σ.turns t.slot)
    {as : List (Action ε α)} (displaced : Occurs (Displaces key t) σ as) :
    call.turn < (σ.run as).turns t.slot := by
  induction as generalizing σ with
  | nil => exact absurd displaced occurs_nil
  | cons a as ih =>
    rcases displaced with now | later
    · have lt := turns_lt_of_displaces sound.steady now
      have up := turns_le_run (sound.step a) as t.slot
      rw [run_cons]
      omega
    · have up := (stepped sound.steady a).2.turns_le t.slot
      exact ih (sound.step a) (Nat.le_trans le up) later

theorem not_holds_of_displaced (sound : σ.Sound) (mem : call ∈ σ.running)
    (claim : call.claim = some t) (lt : call.turn < σ.turns t.slot)
    (unwrapped : σ.turns t.slot < call.turn + UInt64.size) :
    σ.cache.holds call.key t = false := by
  rw [← Bool.not_eq_true]
  intro holds
  have turn := sound.ticketed.turn_eq mem claim holds unwrapped
  omega

end Displaced

/-- The end of a load takes effect if and only if its claim has not been taken away since it was
made; otherwise it changes nothing but the counters. The call returns what its own loader did either
way. Neither this claim nor, when it was made, any other for its slot may have outlived the
generations. -/
theorem settle_displaced_iff (n : Nat) (older newer : List (Action ε α)) (key : String)
    (ttl : Duration) (call : Call) (t : Ticket) (τ σ : Service α)
    (claimed : τ = (ofCapacity n).run (older ++ [.enter key ttl])) (later : σ = τ.run newer)
    (runs : ((ofCapacity n).run older).reply (.enter key ttl : Action ε α) = .runs call)
    (claim : call.claim = some t) (running : call ∈ σ.running)
    (unwrapped : σ.turns t.slot < call.turn + UInt64.size) (outcome : Except (LoadError ε) α) :
    (τ.UnwrappedAt t.slot → ((σ.cache.holds key t = true ∧ σ.cache.Settled σ.now key t.slot ttl
      (σ.step (.settle call.id outcome)).cache outcome) ↔
        ¬ Occurs (Displaces key t) τ newer)) ∧
    (Occurs (Displaces key t) τ newer →
      (σ.step (.settle call.id outcome)).cache = σ.cache.record (Cache.loadEvent outcome)) ∧
    σ.reply (.settle call.id outcome) = .served ⟨outcome, true⟩ := by
  obtain ⟨rfl, rfl, mem, holds⟩ := holds_of_claim ((sound_ofCapacity n).run older) runs claim
  have sound : τ.Sound := claimed ▸ (sound_ofCapacity n).run _
  rw [run_append] at claimed
  change τ = ((ofCapacity n).run older).step _ at claimed
  rw [← claimed] at mem holds
  subst later
  -- A claim that has been taken away is at least a turn behind, and too few for the generation to
  -- be the same again.
  have lost (displaced : Occurs (Displaces call.key t) τ newer) :
      (τ.run newer).cache.holds call.key t = false := by
    have le := (sound.ticketed.stamp call mem t claim).2
    have lt := turn_lt_of_displaced sound le displaced
    exact not_holds_of_displaced (sound.run newer) running claim lt unwrapped
  refine ⟨?_, ?_, ?_⟩
  · intro pending
    have holding := sound.ticketed.holding pending mem claim holds
    constructor
    · rintro ⟨kept, -⟩ displaced
      rw [lost displaced] at kept
      cases kept
    · intro kept
      have holds := (holding.run sound running kept).holds
      exact ⟨holds, settled_of_holds (sound.run newer) running claim holds outcome⟩
  · intro displaced
    exact kept_of_not_holds (sound.run newer) running claim (lost displaced) outcome
  · rw [reply, (sound.run newer).ticketed.act_settle running]

def oneLoad : Service Nat := (ofCapacity 1).run [(.enter "a" ⟨5⟩ : Action String Nat)]

def firstCall : Call := ⟨0, "a", ⟨5⟩, some ⟨⟨0⟩, 1⟩, 1⟩

def reload : List (Action String Nat) := [.delete "a", .enter "a" ⟨5⟩]

theorem deleted_load_discarded :
    ((ofCapacity 1 : Service Nat).reply (.enter "a" ⟨5⟩ : Action String Nat) = .runs firstCall ∧
      firstCall ∈ (oneLoad.run reload).running ∧
      (oneLoad.run reload).turns ⟨0⟩ < firstCall.turn + UInt64.size ∧
      Occurs (Displaces "a" ⟨⟨0⟩, 1⟩) oneLoad reload ∧
      ((oneLoad.run reload).step (.settle 0 (.ok 7) : Action String Nat)).cache =
        (oneLoad.run reload).cache.record .load) ∧
    oneLoad.UnwrappedAt ⟨0⟩ ∧
      oneLoad.cache.Settled .origin "a" ⟨0⟩ ⟨5⟩
        (oneLoad.step (.settle 0 (.ok 7) : Action String Nat)).cache
        (.ok 7 : Except (LoadError String) Nat) := by
  have running : firstCall ∈ (oneLoad.run reload).running := by decide
  have few : (oneLoad.run reload).turns ⟨0⟩ < firstCall.turn + UInt64.size := by decide
  have displaced : Occurs (Displaces "a" ⟨⟨0⟩, 1⟩) oneLoad reload := .inl (.inl ⟨rfl, rfl, rfl⟩)
  have unwrapped : oneLoad.UnwrappedAt ⟨0⟩ := by decide
  refine ⟨⟨rfl, running, few, displaced, ?_⟩, unwrapped, ?_⟩
  · exact (settle_displaced_iff 1 [] reload "a" ⟨5⟩ firstCall ⟨⟨0⟩, 1⟩ oneLoad _ rfl rfl rfl rfl
      running few (.ok 7)).2.1 displaced
  · exact (((settle_displaced_iff 1 [] [] "a" ⟨5⟩ firstCall ⟨⟨0⟩, 1⟩ oneLoad oneLoad rfl rfl rfl
      rfl (by decide) (by decide) (.ok 7)).1 unwrapped).2 occurs_nil).2

namespace Wraparound

def reloads : (k : Nat) → List (Action String Nat)
  | 0 => []
  | k + 1 => reloads k ++ reload

def opening (k : Nat) : List (Action String Nat) :=
  .enter "a" ⟨5⟩ :: (reloads k ++ [.delete "a"])

def loading (turn : Nat) (counters : Counters) : Cache Nat :=
  { oneLoad.cache with cells := .ofFn 1 fun _ => ⟨.loading, .ofNat turn⟩, counters }

def vacant (turn : Nat) (counters : Counters) : Cache Nat :=
  { (.ofCapacity 1 : Cache Nat) with cells := .ofFn 1 fun _ => ⟨.vacant, .ofNat turn⟩, counters }

def lastCall (k : Nat) : Call := ⟨k, "a", ⟨5⟩, some ⟨⟨0⟩, .ofNat (2 * k + 1)⟩, 2 * k + 1⟩

structure Reloaded (k : Nat) (σ : Service Nat) : Prop where
  cache : ∃ counters, σ.cache = loading (2 * k + 1) counters
  turns : σ.turns ⟨0⟩ = 2 * k + 1
  calls : σ.calls = k + 1
  first : firstCall ∈ σ.running
  last : lastCall k ∈ σ.running

theorem delete_loading (turn : Nat) (counters : Counters) : (loading turn counters).delete "a" =
    (vacant (turn + 1) (counters.record .deletion), true) := by
  rw [vacant, UInt64.ofNat_add]
  rfl

theorem enter_vacant (turn : Nat) (counters : Counters) (now : Instant) :
    (vacant turn counters).enter now "a" ⟨5⟩ =
      (loading (turn + 1) (counters.record .miss), .run (some ⟨⟨0⟩, .ofNat (turn + 1)⟩)) := by
  rw [loading, UInt64.ofNat_add]
  rfl

section Reloaded

variable {σ : Service Nat} {k : Nat}

theorem Reloaded.again (h : Reloaded k σ) :
    (σ.step (.delete "a" : Action String Nat)).reply (.enter "a" ⟨5⟩ : Action String Nat) =
      .runs (lastCall (k + 1)) ∧ Reloaded (k + 1) (σ.run reload) := by
  obtain ⟨counters, cache⟩ := h.cache
  let τ : Service Nat := σ.put (vacant (2 * k + 2) (counters.record .deletion))
  let c := loading (2 * k + 3) ((counters.record .deletion).record .miss)
  have deleted : σ.step (.delete "a" : Action String Nat) = τ := by
    rw [step, act, cache, delete_loading]
  have turns : (τ.put c).turns ⟨0⟩ = 2 * k + 3 := calc
    (τ.put c).turns ⟨0⟩ = τ.turns ⟨0⟩ + 1 :=
      turns_put_add 1 (by decide) (UInt64.ofNat_add (2 * k + 2) 1)
    _ = σ.turns ⟨0⟩ + 1 + 1 :=
      congrArg (· + 1) (turns_put_add 1 (by decide) (cache ▸ UInt64.ofNat_add (2 * k + 1) 1))
    _ = 2 * k + 3 := by rw [h.turns]
  have call : (τ.put c).call "a" ⟨5⟩ (some ⟨⟨0⟩, .ofNat (2 * k + 3)⟩) = lastCall (k + 1) := by
    rw [Service.call, turns]
    exact congrArg (fun id => (⟨id, _, _, _, _⟩ : Call)) h.calls
  have acts : τ.act (.enter "a" ⟨5⟩ : Action String Nat) =
      ((τ.put c).start (lastCall (k + 1)), .runs (lastCall (k + 1))) := by
    rw [act, ← call, show τ.cache = vacant (2 * k + 2) _ from rfl, enter_vacant]
    rfl
  rw [reload, run_cons, run_cons, run_nil, deleted, reply, step, acts]
  exact ⟨rfl, ⟨_, rfl⟩, turns, congrArg (· + 1) h.calls, List.mem_cons_of_mem _ h.first,
    List.mem_cons_self⟩

theorem reloaded_reloads (k : Nat) : Reloaded k (oneLoad.run (reloads k)) := by
  induction k with
  | zero => exact ⟨⟨_, rfl⟩, rfl, rfl, List.mem_cons_self, List.mem_cons_self⟩
  | succ k ih =>
    rw [reloads, run_append]
    exact ih.again.2

theorem reloaded_opening (k : Nat) :
    ((ofCapacity 1 : Service Nat).run (opening k)).reply (.enter "a" ⟨5⟩ : Action String Nat) =
        .runs (lastCall (k + 1)) ∧
      Reloaded (k + 1) ((ofCapacity 1).run (opening k ++ [.enter "a" ⟨5⟩])) := by
  have opened : (ofCapacity 1).run (opening k) =
      (oneLoad.run (reloads k)).step (.delete "a" : Action String Nat) := by
    rw [opening, run_cons, run_append]
    rfl
  rw [run_append, opened]
  exact (reloaded_reloads k).again

/-- Where as many turns as there are generations have gone by, the first call ends with a ticket
that is good for the last. -/
theorem Reloaded.overtake (h : Reloaded k σ) (sound : σ.Sound)
    (around : UInt64.ofNat (2 * k + 1) = 1) (later : 0 < k) :
    lastCall k ∈ (σ.step (.settle 0 (.ok 7) : Action String Nat)).running ∧
      (σ.step (.settle 0 (.ok 7) : Action String Nat)).turns ⟨0⟩ = 2 * k + 1 ∧
      (σ.step (.settle 0 (.ok 7) : Action String Nat)).cache.holds "a" ⟨⟨0⟩, 1⟩ = false := by
  obtain ⟨counters, cache⟩ := h.cache
  have acts := sound.ticketed.act_settle h.first (.ok 7 : Except (LoadError String) Nat)
  change σ.act (.settle 0 (.ok 7)) = _ at acts
  rw [step, acts]
  refine ⟨List.mem_filter.2 ⟨h.last, ?_⟩, ?_, ?_⟩
  · exact bne_iff_ne.2 (Nat.ne_of_gt later)
  · rw [← h.turns]
    refine turns_put_add 0 (by decide) ?_
    rw [cache, loading, around]
    rfl
  · show (σ.cache.settle σ.now "a" ⟨5⟩ (some ⟨⟨0⟩, 1⟩) _).1.holds "a" ⟨⟨0⟩, 1⟩ = false
    rw [cache, loading, around]
    rfl

end Reloaded

def latest : Call := ⟨9223372036854775808, "a", ⟨5⟩, some ⟨⟨0⟩, 1⟩, 18446744073709551617⟩

def wrapped : Service Nat :=
  (ofCapacity 1).run (opening 9223372036854775807 ++ [.enter "a" ⟨5⟩])

def overtaken : Service Nat := wrapped.run [(.settle 0 (.ok 7) : Action String Nat)]

/-- A load that has outlived all generations ends with the ticket of the latest one, which is then
discarded although nothing has taken its claim away. -/
theorem latest_load_lost :
    ((ofCapacity 1 : Service Nat).run (opening 9223372036854775807)).reply
        (.enter "a" ⟨5⟩ : Action String Nat) = .runs latest ∧
      latest ∈ overtaken.running ∧ overtaken.turns ⟨0⟩ = latest.turn ∧
      ¬ Occurs (Displaces "a" ⟨⟨0⟩, 1⟩) wrapped [(.settle 0 (.ok 7) : Action String Nat)] ∧
      (overtaken.step (.settle latest.id (.ok 8) : Action String Nat)).cache =
        overtaken.cache.record .load ∧
      ¬ ((overtaken.cache.holds "a" ⟨⟨0⟩, 1⟩ = true ∧
          overtaken.cache.Settled overtaken.now "a" ⟨0⟩ ⟨5⟩
            (overtaken.step (.settle latest.id (.ok 8) : Action String Nat)).cache
            (.ok 8 : Except (LoadError String) Nat)) ↔
        ¬ Occurs (Displaces "a" ⟨⟨0⟩, 1⟩) wrapped
          [(.settle 0 (.ok 7) : Action String Nat)]) := by
  obtain ⟨runs, after⟩ := reloaded_opening 9223372036854775807
  -- By its name the run is nowhere unfolded, which would take as many steps as it has.
  change Reloaded _ wrapped at after
  have called : lastCall (9223372036854775807 + 1) = latest := by decide
  have ended : overtaken = wrapped.step (.settle 0 (.ok 7) : Action String Nat) := by
    rw [overtaken, run_cons, run_nil]
  have sound : wrapped.Sound := (sound_ofCapacity 1).run _
  have sound' : overtaken.Sound := ended ▸ sound.step _
  obtain ⟨mem, turns, lost⟩ := after.overtake sound (by decide) (by decide)
  rw [called] at runs mem
  rw [← ended] at mem turns lost
  have kept : ¬ Occurs (Displaces "a" ⟨⟨0⟩, 1⟩) wrapped
      [(.settle 0 (.ok 7) : Action String Nat)] := by
    rintro ((⟨-, ⟨⟩, -⟩ | ⟨_, ⟨_, _, ⟨⟩⟩, -⟩) | none)
    exact none
  refine ⟨runs, mem, turns, kept, kept_of_not_holds sound' mem rfl lost _, ?_⟩
  intro takes
  cases lost.symm.trans (takes.2 kept).1

end Wraparound

end Service

end Arbiter
