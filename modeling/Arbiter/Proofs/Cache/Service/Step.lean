import Arbiter.Proofs.Cache.Service

namespace Arbiter

universe u v

variable {α : Type u} {ε : Type v}

namespace Service

/-- What a step can come to, from `σ` to `σ'`. Time passes in any of them. -/
inductive Stepped (σ σ' : Service α) : Action ε α → Reply ε α → Prop
  | read (a : Action ε α) (r : Reply ε α) (idle : ∀ call, r ≠ .runs call)
      (kept : r ≠ .deleted true) (table : σ'.cache.table = σ.cache.table)
      (cell : σ'.cache.cell = σ.cache.cell)
      (turns : σ'.turns = σ.turns) (running : σ'.running = σ.running)
      (calls : σ'.calls = σ.calls) : Stepped σ σ' a r
  | bypass (key : String) (ttl : Duration) (call : Call) (is : call = ⟨σ.calls, key, ttl, none, 0⟩)
      (table : σ'.cache.table = σ.cache.table) (cell : σ'.cache.cell = σ.cache.cell)
      (turns : σ'.turns = σ.turns) (running : σ'.running = call :: σ.running)
      (calls : σ'.calls = σ.calls + 1) :
      Stepped σ σ' (.enter key ttl) (.runs call)
  | claim (key : String) (ttl : Duration) (s : Slot) (lag : Nat) (call : Call)
      (is : call = ⟨σ.calls, key, ttl, some ⟨s, (σ.cache.cell s).generation + .ofNat lag⟩,
        σ.turns s + lag⟩)
      (claimed : σ.cache.Claimed key s lag σ'.cache)
      (turns : σ'.turns = Function.update σ.turns s (σ.turns s + lag))
      (running : σ'.running = call :: σ.running) (calls : σ'.calls = σ.calls + 1) :
      Stepped σ σ' (.enter key ttl) (.runs call)
  | store (call : Call) (t : Ticket) (value : α) (mem : call ∈ σ.running)
      (claim : call.claim = some t) (holds : σ.cache.holds call.key t = true)
      (table : σ'.cache.table = σ.cache.table)
      (cell : σ'.cache.cell = Function.update σ.cache.cell t.slot
        ((σ.cache.cell t.slot).store value (.after σ.now call.ttl)))
      (turns : σ'.turns = σ.turns)
      (running : σ'.running = σ.running.filter (·.id != call.id)) (calls : σ'.calls = σ.calls) :
      Stepped σ σ' (.settle call.id (.ok value)) (.served ⟨.ok value, true⟩)
  | drop (call : Call) (t : Ticket) (error : LoadError ε) (mem : call ∈ σ.running)
      (claim : call.claim = some t) (holds : σ.cache.holds call.key t = true)
      (table : σ'.cache.table = σ.cache.table.erase call.key)
      (cell : σ'.cache.cell = Function.update σ.cache.cell t.slot (σ.cache.cell t.slot).reset)
      (turns : σ'.turns = Function.update σ.turns t.slot (σ.turns t.slot + 1))
      (running : σ'.running = σ.running.filter (·.id != call.id)) (calls : σ'.calls = σ.calls) :
      Stepped σ σ' (.settle call.id (.error error)) (.served ⟨.error error, true⟩)
  | discard (call : Call) (outcome : Except (LoadError ε) α) (mem : call ∈ σ.running)
      (displaced : ∀ t, call.claim = some t → σ.cache.holds call.key t = false)
      (same : σ'.cache = σ.cache.record (Cache.loadEvent outcome)) (turns : σ'.turns = σ.turns)
      (running : σ'.running = σ.running.filter (·.id != call.id)) (calls : σ'.calls = σ.calls) :
      Stepped σ σ' (.settle call.id outcome) (.served ⟨outcome, true⟩)
  | delete (key : String) (s : Slot) (mapped : σ.cache.table[key]? = some s)
      (table : σ'.cache.table = σ.cache.table.erase key)
      (cell : σ'.cache.cell = Function.update σ.cache.cell s (σ.cache.cell s).reset)
      (turns : σ'.turns = Function.update σ.turns s (σ.turns s + 1))
      (running : σ'.running = σ.running) (calls : σ'.calls = σ.calls) :
      Stepped σ σ' (.delete key) (.deleted true)

section Turns

variable {σ : Service α} {c : Cache α} {s : Slot} {x : Cell α}

theorem turns_put (cell : c.cell = σ.cache.cell) : (σ.put c).turns = σ.turns := by
  funext t
  simp [put, cell]

theorem turns_put_add (lag : Nat) (small : lag < 3)
    (moved : (c.cell s).generation = (σ.cache.cell s).generation + .ofNat lag) :
    (σ.put c).turns s = σ.turns s + lag := by
  have back : (σ.cache.cell s).generation + UInt64.ofNat lag - (σ.cache.cell s).generation =
      UInt64.ofNat lag := by grind
  simp only [put, moved, back]
  rw [UInt64.toNat_ofNat', Nat.mod_eq_of_lt (by omega)]

theorem turns_put_update (cell : c.cell = Function.update σ.cache.cell s x) (lag : Nat)
    (small : lag < 3) (moved : x.generation = (σ.cache.cell s).generation + .ofNat lag) :
    (σ.put c).turns = Function.update σ.turns s (σ.turns s + lag) := by
  funext t
  by_cases e : t = s
  · subst e
    rw [Function.update_self, turns_put_add lag small]
    rw [cell, Function.update_self, moved]
  · simp [put, cell, Function.update_of_ne e]

end Turns

section Step

variable {σ : Service α}

theorem stepped_bypass {key : String} {ttl : Duration} {c : Cache α}
    (table : c.table = σ.cache.table) (cell : c.cell = σ.cache.cell)
    (e : σ.cache.enter σ.now key ttl = (c, .run none)) :
    Stepped σ (σ.step (.enter key ttl : Action ε α)) (.enter key ttl : Action ε α)
      (σ.reply (.enter key ttl)) := by
  rw [step, reply, act, e]
  exact .bypass key ttl _ rfl table cell (turns_put cell) rfl rfl

theorem stepped_claim {key : String} {ttl : Duration} {c : Cache α} {s : Slot} {lag : Nat}
    (claimed : σ.cache.Claimed key s lag c)
    (e : σ.cache.enter σ.now key ttl =
      (c, .run (some ⟨s, (σ.cache.cell s).generation + .ofNat lag⟩))) :
    Stepped σ (σ.step (.enter key ttl : Action ε α)) (.enter key ttl : Action ε α)
      (σ.reply (.enter key ttl)) := by
  have small : lag < 3 := by
    have either := claimed.small
    omega
  have turns := turns_put_update claimed.cell lag small rfl
  rw [step, reply, act, e]
  refine .claim key ttl s lag _ ?_ claimed turns rfl rfl
  simp [call, turns]
  rfl

theorem stepped_enter (h : σ.cache.Steady) (key : String) (ttl : Duration) :
    (σ.step (.enter key ttl : Action ε α)).cache.Steady ∧
      Stepped σ (σ.step (.enter key ttl : Action ε α)) (.enter key ttl : Action ε α)
        (σ.reply (.enter key ttl)) := by
  cases zero : ttl.isZero with
  | true =>
    have e := σ.cache.enter_bypass σ.now key zero
    refine ⟨?_, stepped_bypass (c := σ.cache.record .bypass) rfl rfl e⟩
    rw [step, act, e]
    exact (Cache.Coherent.record h .bypass).steady
  | false =>
    obtain ⟨steady, looked⟩ := h.lookup σ.now key
    have e := σ.cache.enter_lookup σ.now key zero
    generalize σ.cache.lookup σ.now key = result at steady looked e
    obtain ⟨c, lookup⟩ := result
    dsimp only at steady looked
    cases lookup with
    | inFlight load =>
      cases looked with
      | inFlight s mapped loading same =>
        subst same
        rw [step, reply, act, e]
        refine ⟨(Cache.Coherent.record h .wait).steady, ?_⟩
        exact .read _ _ nofun nofun rfl rfl (turns_put rfl) rfl rfl
    | hit value =>
      cases looked with
      | hit s value expiry mapped stored fresh shows =>
        rw [step, reply, act, e]
        exact ⟨steady,
          .read _ _ nofun nofun shows.table shows.cell (turns_put shows.cell) rfl rfl⟩
    | claimed claim =>
      obtain ⟨s, lag, claimed, rfl⟩ := looked.claimed h
      refine ⟨?_, stepped_claim claimed e⟩
      rw [step, act, e]
      exact steady
    | unavailable =>
      cases looked with
      | unavailable empty same =>
        subst same
        refine ⟨?_, stepped_bypass (c := σ.cache.record .miss) rfl rfl e⟩
        rw [step, act, e]
        exact steady

theorem stepped_settle (h : σ.cache.Steady) (id : Nat) (outcome : Except (LoadError ε) α) :
    (σ.step (.settle id outcome)).cache.Steady ∧
      Stepped σ (σ.step (.settle id outcome)) (.settle id outcome)
        (σ.reply (.settle id outcome)) := by
  rw [step, reply, act]
  cases found : σ.running.find? (·.id == id) with
  | none => exact ⟨h, .read _ _ nofun nofun rfl rfl rfl rfl rfl⟩
  | some call =>
    have mem := List.mem_of_find?_eq_some found
    have same : call.id = id := by simpa using List.find?_some found
    subst same
    have counted := (Cache.Coherent.record h (Cache.loadEvent outcome)).steady
    simp only [settle_eq, Cache.settle]
    cases claim : call.claim with
    | none =>
      refine ⟨counted, .discard call outcome mem ?_ rfl (turns_put rfl) rfl rfl⟩
      rw [claim]
      exact nofun
    | some t =>
      obtain ⟨steady, completed⟩ := counted.complete σ.now call.key t call.ttl outcome
      refine ⟨steady, ?_⟩
      cases completed with
      | settled holds shows =>
        cases outcome with
        | ok value =>
          refine .store call t value mem claim holds shows.table shows.cell ?_ rfl rfl
          apply (turns_put_update shows.cell 0 (by decide) (UInt64.add_zero _).symm).trans
          exact Function.update_eq_self t.slot σ.turns
        | error error =>
          refine .drop call t error mem claim holds shows.table shows.cell ?_ rfl rfl
          exact turns_put_update shows.cell 1 (by decide) rfl
      | displaced displaced same =>
        refine .discard call outcome mem ?_ same ?_ rfl rfl
        · intro t' ht'
          rw [claim] at ht'
          cases ht'
          exact displaced
        · have cell := congrArg Cache.cell same
          exact turns_put cell

theorem stepped_delete (h : σ.cache.Steady) (key : String) :
    (σ.step (.delete key : Action ε α)).cache.Steady ∧
      Stepped σ (σ.step (.delete key : Action ε α)) (.delete key : Action ε α)
        (σ.reply (.delete key)) := by
  rw [step, reply, act]
  obtain ⟨steady, deleted⟩ := h.delete key
  refine ⟨steady, ?_⟩
  generalize σ.cache.delete key = result at deleted
  obtain ⟨c, mapped⟩ := result
  dsimp only at deleted
  cases deleted with
  | dropped s mapped shows =>
    refine .delete key s mapped shows.table shows.cell ?_ rfl rfl
    exact turns_put_update shows.cell 1 (by decide) rfl
  | absent unmapped same =>
    subst same
    exact .read _ _ nofun nofun rfl rfl (turns_put rfl) rfl rfl

theorem stepped (h : σ.cache.Steady) (a : Action ε α) :
    (σ.step a).cache.Steady ∧ Stepped σ (σ.step a) a (σ.reply a) := by
  cases a with
  | enter key ttl => exact stepped_enter h key ttl
  | settle id outcome => exact stepped_settle h id outcome
  | delete key => exact stepped_delete h key
  | peek key => exact ⟨h, .read _ _ nofun nofun rfl rfl rfl rfl rfl⟩
  | advance span =>
    rw [step, reply, act]
    cases σ.now.add? span <;> exact ⟨h, .read _ _ nofun nofun rfl rfl rfl rfl rfl⟩

theorem steady_run (h : σ.cache.Steady) (as : List (Action ε α)) : (σ.run as).cache.Steady := by
  induction as generalizing σ with
  | nil => exact h
  | cons a as ih => exact ih (stepped h a).1

theorem capacity_step (σ : Service α) (a : Action ε α) :
    (σ.step a).cache.capacity = σ.cache.capacity := by
  cases a with
  | enter key ttl =>
    rw [step, act, ← σ.cache.capacity_enter σ.now key ttl]
    generalize σ.cache.enter σ.now key ttl = result
    obtain ⟨c, admission⟩ := result
    cases admission <;> rfl
  | settle id outcome =>
    rw [step, act]
    cases σ.running.find? (·.id == id) with
    | none => rfl
    | some call =>
      show (σ.cache.settle _ _ _ _ _).1.capacity = _
      unfold Cache.settle
      cases call.claim <;> simp
  | delete key => exact σ.cache.capacity_delete key
  | peek key => rfl
  | advance span =>
    rw [step, act]
    cases σ.now.add? span <;> rfl

theorem capacity_run (σ : Service α) (as : List (Action ε α)) :
    (σ.run as).cache.capacity = σ.cache.capacity := by
  induction as generalizing σ with
  | nil => rfl
  | cons a as ih => exact (ih (σ.step a)).trans (capacity_step σ a)

end Step

theorem capacity_run_ofCapacity (n : Nat) (as : List (Action ε α)) :
    ((ofCapacity n : Service α).run as).cache.capacity = n :=
  (capacity_run _ as).trans (Arena.capacity_ofFn n _)

theorem steady_ofCapacity (n : Nat) : (ofCapacity n : Service α).cache.Steady :=
  (Cache.coherent_ofCapacity n).steady

end Service

end Arbiter
