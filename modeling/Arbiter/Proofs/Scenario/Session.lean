import Arbiter.Scenario.Session
import Arbiter.Proofs.Cache.Representation
import Arbiter.Proofs.Cache.Service.Tickets

namespace Arbiter

namespace Scenario

namespace Session

structure Follows (s : Session) (σ : Service String) : Prop where
  cache : s.cache = σ.cache
  now : s.now = σ.now

/-- Steps of a service lead from `σ` to where the session is, and end no call that was running. -/
def Reaches (σ : Service String) (s : Session) : Prop :=
  ∃ as : List (Action String String), s.Follows (σ.run as) ∧
    ∀ call ∈ σ.running, call ∈ (σ.run as).running

def Simulated (run : Runner) : Prop :=
  ∀ (s : Session) (steps : List Step) (σ : Service String), σ.Sound → s.Follows σ →
    Reaches σ (run s steps).1

section Reaches

variable {σ : Service String} {s s' : Session}

theorem Follows.reaches (h : s.Follows σ) : Reaches σ s := ⟨[], h, fun _ mem => mem⟩

theorem Reaches.step {a : Action String String} (h : s.Follows (σ.step a))
    (running : ∀ call ∈ σ.running, call ∈ (σ.step a).running) : Reaches σ s :=
  ⟨[a], h, running⟩

theorem Reaches.congr (h : Reaches σ s) (cache : s'.cache = s.cache) (now : s'.now = s.now) :
    Reaches σ s' := by
  obtain ⟨as, follows, running⟩ := h
  exact ⟨as, ⟨cache.trans follows.cache, now.trans follows.now⟩, running⟩

theorem Reaches.trans (sound : σ.Sound) (h : Reaches σ s)
    (next : ∀ τ : Service String, τ.Sound → s.Follows τ → Reaches τ s') : Reaches σ s' := by
  obtain ⟨as, follows, running⟩ := h
  obtain ⟨bs, follows', running'⟩ := next (σ.run as) (sound.run as) follows
  refine ⟨as ++ bs, ?_, ?_⟩
  · rw [Service.run_append]
    exact follows'
  · intro call mem
    rw [Service.run_append]
    exact running' call (running call mem)

theorem cache_setCache (s : Session) (c : Cache String) : (s.setCache c).cache = c := by
  rw [setCache, cache]
  cases s.store <;> rfl

theorem now_setCache (s : Session) (c : Cache String) : (s.setCache c).now = s.now := rfl

end Reaches

section Ask

variable {σ : Service String} {s : Session}

theorem reaches_advance (h : s.Follows σ) (span : Duration) :
    Reaches σ (s.ask (.advance span)).1 := by
  have manual := h.now
  rw [ask]
  cases moved : s.manual.add? span with
  | none => exact h.reaches
  | some later =>
    rw [now] at manual
    cases clock : s.clock with
    | system =>
      refine Follows.reaches ⟨h.cache, ?_⟩
      rw [← manual, now, clock]
      rfl
    | manual =>
      rw [clock, Clock.read] at manual
      have step : σ.step (.advance span : Action String String) = { σ with now := later } := by
        rw [Service.step, Service.act, ← manual, moved]
      refine .step (a := .advance span) ?_ ?_
      · rw [step]
        exact ⟨h.cache, rfl⟩
      · rw [step]
        exact fun _ mem => mem

theorem reaches_invalidate (h : s.Follows σ) (key : Decision.Key) :
    Reaches σ (s.ask (.invalidate key)).1 := by
  have cache := h.cache
  rw [Session.cache] at cache
  rw [ask]
  cases store : s.store with
  | plain c => exact h.reaches
  | decisions d =>
    rw [store] at cache
    refine .step (a := .delete key.text) ⟨?_, h.now⟩ fun _ mem => mem
    show (d.cache.delete key.text).1 = (σ.cache.delete key.text).1
    rw [← cache]
    rfl

theorem reaches_ask (h : s.Follows σ) (q : Query) : Reaches σ (s.ask q).1 := by
  cases q with
  | delete key =>
    refine .step (a := .delete key) ⟨?_, h.now⟩ fun _ mem => mem
    show (s.setCache (s.cache.delete key).1).cache = (σ.cache.delete key).1
    rw [cache_setCache, h.cache]
  | advance span => exact reaches_advance h span
  | invalidate key => exact reaches_invalidate h key
  | cancel token => exact Follows.reaches ⟨h.cache, h.now⟩
  | cached key =>
    rw [ask]
    cases s.store <;> exact h.reaches
  | ttl =>
    rw [ask]
    cases s.store <;> exact h.reaches
  | _ => exact h.reaches

end Ask

section Serve

variable {run : Runner} {σ : Service String} {s : Session}

theorem reaches_load (simulated : Simulated run) (sound : σ.Sound) (h : s.Follows σ)
    (key : String) (c : Call Step) : Reaches σ (s.load run key c).1 := by
  have counted : ({ s with calls := s.calls + 1 } : Session).Follows σ := ⟨h.cache, h.now⟩
  rw [load]
  cases c.during with
  | none => exact counted.reaches
  | some steps => exact simulated _ steps σ sound counted

theorem follows_enter (h : s.Follows σ) (key : String) (ttl : Duration) :
    (s.setCache (σ.cache.enter σ.now key ttl).1).Follows
      (σ.step (.enter key ttl : Action String String)) := by
  refine ⟨?_, ?_⟩
  · rw [cache_setCache, Service.step, Service.act]
    obtain ⟨c, admission⟩ := σ.cache.enter σ.now key ttl
    cases admission <;> rfl
  · rw [now_setCache, h.now, Service.step, Service.act]
    obtain ⟨c, admission⟩ := σ.cache.enter σ.now key ttl
    cases admission <;> rfl

theorem running_enter (key : String) (ttl : Duration) {call : Arbiter.Call}
    (mem : call ∈ σ.running) :
    call ∈ (σ.step (.enter key ttl : Action String String)).running := by
  rw [Service.step, Service.act]
  obtain ⟨c, admission⟩ := σ.cache.enter σ.now key ttl
  cases admission with
  | hit value => exact mem
  | wait load => exact mem
  | run claim => exact List.mem_cons_of_mem _ mem

theorem reaches_settle {τ : Service String} {call : Arbiter.Call} (sound : τ.Sound)
    (h : s.Follows τ) (mem : call ∈ τ.running) (outcome : Except (LoadError String) String) :
    (s.setCache (s.cache.settle s.now call.key call.ttl call.claim outcome).1).Follows
        (τ.step (.settle call.id outcome)) ∧
      ∀ other ∈ τ.running, other.id ≠ call.id →
        other ∈ (τ.step (.settle call.id outcome)).running := by
  rw [Service.step, sound.ticketed.act_settle mem]
  refine ⟨⟨?_, h.now⟩, ?_⟩
  · rw [cache_setCache, h.cache, h.now]
    rfl
  · intro other mem' ne
    exact List.mem_filter.2 ⟨mem', by simpa using ne⟩

theorem reaches_serve (simulated : Simulated run) (sound : σ.Sound) (h : s.Follows σ)
    (c : Call Step) : Reaches σ (s.serve run c).1 := by
  rw [serve]
  cases s.resolve? c.target with
  | none => exact h.reaches
  | some target =>
    obtain ⟨key, ttl⟩ := target
    have entered := follows_enter h key ttl
    have running := fun call (mem : call ∈ σ.running) => running_enter key ttl mem
    dsimp only
    rw [h.cache, h.now]
    cases admitted : σ.cache.enter σ.now key ttl with
    | mk cache admission =>
      rw [admitted] at entered
      cases admission with
      | hit value => exact .step entered running
      | wait load => exact .step entered running
      | run claim =>
        have started : ∃ call : Arbiter.Call, call.id = σ.calls ∧ call.key = key ∧ call.ttl = ttl ∧
            call.claim = claim ∧
            call ∈ (σ.step (.enter key ttl : Action String String)).running := by
          rw [Service.step, Service.act, admitted]
          exact ⟨_, rfl, rfl, rfl, rfl, List.mem_cons_self⟩
        obtain ⟨call, id, rfl, rfl, rfl, mem⟩ := started
        have sound' := sound.step (.enter call.key call.ttl : Action String String)
        have loaded := reaches_load simulated sound' entered call.key c
        dsimp only
        generalize (s.setCache cache).load run call.key c = result at loaded
        obtain ⟨s', outcome, during⟩ := result
        obtain ⟨as, follows, kept⟩ := loaded
        -- The steps of the loader end calls of their own only, so this one is still running.
        obtain ⟨settled, others⟩ := reaches_settle (sound'.run as) follows (kept call mem) outcome
        refine ⟨.enter call.key call.ttl :: (as ++ [.settle call.id outcome]), ?_, ?_⟩
        · rw [Service.run_cons, Service.run_append]
          exact settled
        · intro other was
          rw [Service.run_cons, Service.run_append]
          apply others other (kept other (running other was))
          have lt := sound.ticketed.id_lt other was
          omega

end Serve

section Run

variable {run : Runner} {σ : Service String} {s : Session}

theorem reaches_joinOne (simulated : Simulated run) (sound : σ.Sound) (h : s.Follows σ)
    (id : String) : Reaches σ (s.joinOne run id).1 := by
  have erased : ({ s with threads := s.threads.erase id } : Session).Follows σ := ⟨h.cache, h.now⟩
  rw [joinOne]
  cases s.threads[id]? with
  | none => exact h.reaches
  | some thread =>
    cases thread with
    | finished report => exact erased.reaches
    | waiting call load =>
      dsimp only
      split
      · exact h.reaches
      · have served := reaches_serve simulated sound erased call
        generalize serve run { s with threads := s.threads.erase id } call = result at served
        obtain ⟨s', answer⟩ := result
        cases answer with
        | ok report => exact served
        | error waits =>
          cases waits with
          | some load => exact served.congr rfl rfl
          | none => exact served

theorem reaches_joinAll (simulated : Simulated run) (sound : σ.Sound) (h : s.Follows σ)
    (ids : List String) : Reaches σ (s.joinAll run ids).1 := by
  induction ids generalizing s σ with
  | nil => exact h.reaches
  | cons id ids ih =>
    apply (reaches_joinOne simulated sound h id).trans sound
    intro τ sound' follows
    exact ih sound' follows

theorem reaches_act (simulated : Simulated run) (sound : σ.Sound) (h : s.Follows σ) (st : Step) :
    Reaches σ (s.act run st).1 := by
  cases st with
  | call c join =>
    have served := reaches_serve simulated sound h c
    rw [act]
    generalize s.serve run c = result at served
    obtain ⟨s', answer⟩ := result
    cases answer with
    | ok report => exact served
    | error waits => cases waits <;> exact served
  | spawn id c join =>
    have served := reaches_serve simulated sound h c
    rw [act]
    generalize s.serve run c = result at served
    obtain ⟨s', answer⟩ := result
    cases answer with
    | ok report => exact served.congr rfl rfl
    | error waits =>
      cases waits with
      | some load => exact served.congr rfl rfl
      | none => exact served
  | ask q join => exact reaches_ask h q

theorem reaches_step (simulated : Simulated run) (sound : σ.Sound) (h : s.Follows σ) (st : Step) :
    Reaches σ (s.step run st).1 := by
  have acted := reaches_act simulated sound h st
  rw [step]
  cases st.join with
  | none => exact acted
  | some ids =>
    apply acted.trans sound
    intro τ sound' follows
    exact reaches_joinAll simulated sound' follows ids

theorem simulated_runWith (simulated : Simulated run) : Simulated (runWith run) := by
  intro s steps
  induction steps generalizing s with
  | nil =>
    intro σ sound h
    exact h.reaches
  | cons st steps ih =>
    intro σ sound h
    apply (reaches_step simulated sound h st).trans sound
    intro τ sound' follows
    exact ih _ τ sound' follows

theorem simulated_runTo (depth : Nat) : Simulated (runTo depth) := by
  induction depth with
  | zero =>
    intro s steps σ sound h
    exact h.reaches
  | succ n ih => exact simulated_runWith ih

end Run

section Get

variable {run : Runner} {s : Session} {c : Call Step} {key : String} {ttl : Duration}

theorem serve_eq_get (resolved : s.resolve? c.target = some (key, ttl)) (idle : c.during = none) :
    (s.serve run c).1.cache = (s.cache.get s.now key ttl
        fun key => s.outcome (s.calls + 1) key c.token c.ending).1 ∧
      (s.serve run c).2.toOption.map Report.served = (s.cache.get s.now key ttl
        fun key => s.outcome (s.calls + 1) key c.token c.ending).2 := by
  rw [serve, resolved, Cache.get]
  dsimp only
  obtain ⟨cache, admission⟩ := s.cache.enter s.now key ttl
  cases admission with
  | hit value => exact ⟨cache_setCache s cache, rfl⟩
  | wait load => exact ⟨cache_setCache s cache, rfl⟩
  | run claim =>
    simp only [load, idle]
    rw [cache_setCache]
    let outcome := s.outcome (s.calls + 1) key c.token c.ending
    have settled := congrArg (·.settle s.now key ttl claim outcome) (cache_setCache s cache)
    refine ⟨congrArg Prod.fst settled, ?_⟩
    exact congrArg (fun result => some (Cache.Served.mk result.2 true)) settled

end Get

section Open

variable {setup : Setup} {observed : Bool} {s : Session}

theorem store?_cache {store : Store} (made : setup.store? = .ok store) :
    ∃ n, store.cache = .ofCapacity n := by
  cases setup with
  | checked n clock =>
    rw [Setup.store?, Cache.new?] at made
    split at made <;> cases made
    exact ⟨n, rfl⟩
  | asserted n clock =>
    rw [Setup.store?, Cache.new?] at made
    split at made <;> cases made
    exact ⟨n, rfl⟩
  | decisions config clock =>
    rw [Setup.store?, Decisions.new?] at made
    split at made <;> cases made
    exact ⟨config.capacity, rfl⟩

theorem follows_open (opened : open? setup observed = .ok s) :
    ∃ n, s.Follows (Service.ofCapacity n) := by
  rw [open?] at opened
  cases made : setup.store? with
  | error refusal =>
    rw [made] at opened
    cases opened
  | ok store =>
    rw [made] at opened
    cases opened
    obtain ⟨n, cache⟩ := store?_cache made
    refine ⟨n, cache, ?_⟩
    show setup.clock.read .origin = .origin
    cases setup.clock <;> rfl

/-- Whatever a script does to a cache, nested loads and suspended calls included, is what some run
of a service does to it. -/
theorem follows_run (opened : open? setup observed = .ok s) (steps : List Step) :
    ∃ (n : Nat) (as : List (Action String String)),
      (s.run steps).1.Follows ((Service.ofCapacity n).run as) := by
  obtain ⟨n, follows⟩ := follows_open opened
  obtain ⟨as, follows', -⟩ :=
    simulated_runTo (callsIn steps + 1) s steps _ (Service.sound_ofCapacity n) follows
  exact ⟨n, as, follows'⟩

theorem audit_run (opened : open? setup observed = .ok s) (steps : List Step) :
    (s.run steps).1.cache.audit = .ok () := by
  obtain ⟨n, as, follows⟩ := follows_run opened steps
  rw [follows.cache]
  exact ((Service.sound_ofCapacity n).run as).steady.audit

end Open

end Session

end Scenario

end Arbiter
