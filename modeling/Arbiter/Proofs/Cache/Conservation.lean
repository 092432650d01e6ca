import Arbiter.Proofs.Cache.Counting
import Arbiter.Proofs.Cache.Rollback
import Arbiter.Proofs.Cache.Service.Promotion
import Mathlib.Data.UInt

namespace Arbiter

universe u v

variable {α : Type u} {ε : Type v}

def Counters.fields : List (Counters → UInt64) :=
  [hits, misses, bypasses, waits, loads, failures, panics, evictions, deletions]

theorem Counters.zero_of_mem {f : Counters → UInt64} (mem : f ∈ fields) : f zero = 0 := by
  revert f
  simp [fields, zero]

namespace Service

def total (weight : Service α → Action ε α → Nat) : Service α → List (Action ε α) → Nat
  | _, [] => 0
  | σ, a :: as => weight σ a + total weight (σ.step a) as

def moved (f : Counters → UInt64) (σ : Service α) (a : Action ε α) : Nat :=
  (f (σ.step a).cache.counters - f σ.cache.counters).toNat

def bumps (f : Counters → UInt64) : Service α → List (Action ε α) → Nat := total (moved f)

def count (p : Service α → Action ε α → Bool) : Service α → List (Action ε α) → Nat :=
  total fun σ a => (p σ a).toNat

def looks (σ : Service α) (a : Action ε α) : Bool :=
  match a, σ.reply a with
  | .enter _ _, .waits _ => false
  | .enter _ _, _ => true
  | _, _ => false

def returns (σ : Service α) (a : Action ε α) : Bool :=
  match σ.reply a with
  | .served _ => true
  | _ => false

def reloads (σ : Service α) (a : Action ε α) : Bool :=
  match a, σ.reply a with
  | .enter key _, .runs call => call.claim.isSome && σ.cache.contains key
  | _, _ => false

def unmaps (σ : Service α) (a : Action ε α) : Bool :=
  match a, σ.subject? a with
  | .settle _ (.error _), some key =>
    σ.cache.contains key && !(σ.step a).cache.contains key
  | _, _ => false

structure Figures (σ : Service α) (counters : Counters) (size running calls : Nat) : Prop where
  counters : σ.cache.counters = counters
  size : σ.cache.size = size
  running : σ.running.length = running
  calls : σ.calls = calls

inductive Billed (σ : Service α) (a : Action ε α) : Prop
  | idle (looks : σ.looks a = false) (returns : σ.returns a = false) (reloads : σ.reloads a = false)
      (unmaps : σ.unmaps a = false)
      (figures : (σ.step a).Figures σ.cache.counters σ.cache.size σ.running.length σ.calls)
  | wait (key : String) (ttl : Duration) (load : Ticket) (is : a = .enter key ttl)
      (waits : σ.reply a = .waits load) (figures : (σ.step a).Figures
        (σ.cache.counters.record .wait) σ.cache.size σ.running.length σ.calls)
  | hit (key : String) (ttl : Duration) (value : α) (is : a = .enter key ttl)
      (served : σ.reply a = .served ⟨.ok value, false⟩) (figures : (σ.step a).Figures
        (σ.cache.counters.record .hit) σ.cache.size σ.running.length σ.calls)
  | bypass (key : String) (ttl : Duration) (call : Call) (is : a = .enter key ttl)
      (runs : σ.reply a = .runs call) (unclaimed : call.claim = none)
      (figures : (σ.step a).Figures
        (σ.cache.counters.record .bypass) σ.cache.size (σ.running.length + 1) (σ.calls + 1))
  | reload (key : String) (ttl : Duration) (call : Call) (is : a = .enter key ttl)
      (runs : σ.reply a = .runs call) (claimed : call.claim.isSome = true)
      (mapped : σ.cache.contains key = true) (figures : (σ.step a).Figures
        (σ.cache.counters.record .miss) σ.cache.size (σ.running.length + 1) (σ.calls + 1))
  | fill (key : String) (ttl : Duration) (call : Call) (is : a = .enter key ttl)
      (runs : σ.reply a = .runs call) (unmapped : σ.cache.contains key = false)
      (figures : (σ.step a).Figures
        (σ.cache.counters.record .miss) (σ.cache.size + 1) (σ.running.length + 1) (σ.calls + 1))
  | evict (key : String) (ttl : Duration) (call : Call) (is : a = .enter key ttl)
      (runs : σ.reply a = .runs call) (unmapped : σ.cache.contains key = false)
      (figures : (σ.step a).Figures ((σ.cache.counters.record .miss).record .eviction)
        σ.cache.size (σ.running.length + 1) (σ.calls + 1))
  | finish (id running size : Nat) (outcome : Except (LoadError ε) α) (is : a = .settle id outcome)
      (served : σ.reply a = .served ⟨outcome, true⟩) (one : running + 1 = σ.running.length)
      (dropped : size + (σ.unmaps a).toNat = σ.cache.size) (figures : (σ.step a).Figures
        (σ.cache.counters.record (Cache.loadEvent outcome)) size running σ.calls)
  | delete (key : String) (size : Nat) (is : a = .delete key) (dropped : size + 1 = σ.cache.size)
      (mapped : σ.reply a = .deleted true) (figures : (σ.step a).Figures
        (σ.cache.counters.record .deletion) size σ.running.length σ.calls)

section Billed

variable {σ : Service α}

theorem billed_enter (h : σ.cache.Steady) (slots : σ.cache.capacity ≠ 0) (key : String)
    (ttl : Duration) : σ.Billed (.enter key ttl : Action ε α) := by
  cases zero : ttl.isZero with
  | true =>
    have e := σ.cache.enter_bypass σ.now key zero
    refine .bypass key ttl _ rfl (by rw [reply, act, e]; rfl) rfl ?_
    rw [step, act, e]
    exact ⟨rfl, rfl, rfl, rfl⟩
  | false =>
    have e := σ.cache.enter_lookup σ.now key zero
    have counted := h.counted σ.now key
    generalize σ.cache.lookup σ.now key = result at e counted
    obtain ⟨c, lookup⟩ := result
    dsimp only at counted
    have replied : σ.reply (.enter key ttl : Action ε α) =
        (σ.respond key ttl (Cache.admitted (c, lookup))).2 := by rw [reply, act, e]
    have stepped : σ.step (.enter key ttl : Action ε α) =
        (σ.respond (ε := ε) key ttl (Cache.admitted (c, lookup))).1 := by rw [step, act, e]
    cases counted with
    | inFlight load same =>
      subst same
      exact .wait key ttl load rfl replied (stepped ▸ ⟨rfl, rfl, rfl, rfl⟩)
    | hit value counters size =>
      exact .hit key ttl value rfl replied (stepped ▸ ⟨counters, size, rfl, rfl⟩)
    | reload claim mapped counters size =>
      exact .reload key ttl _ rfl replied rfl mapped (stepped ▸ ⟨counters, size, rfl, rfl⟩)
    | fill claim unmapped counters size =>
      exact .fill key ttl _ rfl replied unmapped (stepped ▸ ⟨counters, size, rfl, rfl⟩)
    | evict claim unmapped counters size =>
      exact .evict key ttl _ rfl replied unmapped (stepped ▸ ⟨counters, size, rfl, rfl⟩)
    | unavailable empty => exact absurd empty slots

theorem length_rest (h : σ.Ticketed) {call : Call} (mem : call ∈ σ.running) :
    (σ.running.filter (·.id != call.id)).length + 1 = σ.running.length := by
  have others : σ.running.filter (·.id != call.id) = σ.running.erase call := by
    rw [(List.Nodup.of_map Call.id h.ids).erase_eq_filter]
    apply List.filter_congr
    intro other mem'
    rw [Bool.eq_iff_iff, bne_iff_ne, bne_iff_ne]
    exact not_congr ⟨h.eq_of_id mem' mem, congrArg Call.id⟩
  rw [others, List.length_erase_add_one mem]

theorem unmaps_of_table {a : Action ε α} (same : (σ.step a).cache.table = σ.cache.table) :
    σ.unmaps a = false := by
  unfold unmaps
  split
  · simp [Cache.contains, same]
  · rfl

theorem unmaps_of_drop (ticketed : σ.Ticketed) {call : Call} (mem : call ∈ σ.running)
    {error : LoadError ε} (mapped : σ.cache.contains call.key = true)
    (gone : (σ.step (.settle call.id (.error error))).cache.contains call.key = false) :
    σ.unmaps (.settle call.id (.error error)) = true := by
  unfold unmaps
  rw [subject?_settle ticketed mem]
  simp [mapped, gone]

theorem size_settle (sound : σ.Sound) {call : Call} (mem : call ∈ σ.running)
    (outcome : Except (LoadError ε) α) : (σ.step (.settle call.id outcome)).cache.size +
      (σ.unmaps (.settle call.id outcome)).toNat = σ.cache.size := by
  have steady := (stepped sound.steady (.settle call.id outcome)).1
  -- The table changes where a load fails that still has its claim, and nowhere else.
  have kept (same : (σ.step (.settle call.id outcome)).cache.table = σ.cache.table) :
      (σ.step (.settle call.id outcome)).cache.size +
        (σ.unmaps (.settle call.id outcome)).toNat = σ.cache.size := by
    rw [unmaps_of_table same, Cache.size, same]
    rfl
  cases claim : call.claim with
  | none =>
    apply kept
    rw [kept_of_unclaimed sound mem claim]
    rfl
  | some t =>
    rcases settled_or_kept sound mem claim outcome with ⟨holds, settled⟩ | ⟨-, same⟩
    · cases outcome with
      | ok value => exact kept (Cache.Shows.table settled)
      | error error =>
        have mapped := (Cache.holds_iff.1 holds).1
        have gone := Cache.contains_of_unmapped (Cache.Shows.erased settled)
        rw [unmaps_of_drop sound.ticketed mem (Cache.contains_of_mapped mapped) gone,
          steady.size_eq, Cache.Shows.recency settled, sound.steady.size_eq]
        exact List.length_erase_add_one (sound.steady.linked_of_mapped mapped)
    · apply kept
      rw [same]
      rfl

theorem billed_settle (sound : σ.Sound) (id : Nat) (outcome : Except (LoadError ε) α) :
    σ.Billed (.settle id outcome) := by
  cases found : σ.running.find? (·.id == id) with
  | none =>
    have idle : σ.act (.settle id outcome) = (σ, .nothing) := by rw [act, found]
    refine .idle rfl (by rw [returns, reply, idle]) rfl (unmaps_of_table ?_) ?_
    · rw [step, idle]
    · rw [step, idle]
      exact ⟨rfl, rfl, rfl, rfl⟩
  | some call =>
    have mem := List.mem_of_find?_eq_some found
    have same : call.id = id := by simpa using List.find?_some found
    subst same
    have acts := sound.ticketed.act_settle mem outcome
    refine .finish call.id _ _ outcome rfl (by rw [reply, acts]) (length_rest sound.ticketed mem)
      (size_settle sound mem outcome) ⟨?_, rfl, ?_, ?_⟩
    · rw [step, acts]
      exact σ.cache.counters_settle σ.now call.key call.ttl call.claim outcome
    · rw [step, acts]
      rfl
    · rw [step, acts]
      rfl

theorem billed_delete (h : σ.cache.Steady) (key : String) :
    σ.Billed (.delete key : Action ε α) := by
  obtain ⟨steady, deleted⟩ := h.delete key
  have counters := σ.cache.counters_delete key
  have replied : σ.reply (.delete key : Action ε α) = .deleted (σ.cache.delete key).2 := rfl
  have stepped : σ.step (.delete key : Action ε α) = σ.put (σ.cache.delete key).1 := rfl
  generalize σ.cache.delete key = result at *
  obtain ⟨c, mapped⟩ := result
  dsimp only at *
  cases deleted with
  | dropped s mapped shows =>
    refine .delete key c.size rfl ?_ replied (stepped ▸ ⟨counters, rfl, rfl, rfl⟩)
    rw [steady.size_eq, shows.recency, h.size_eq]
    exact List.length_erase_add_one (h.linked_of_mapped mapped)
  | absent unmapped same =>
    subst same
    refine .idle rfl ?_ rfl rfl (stepped ▸ ⟨rfl, rfl, rfl, rfl⟩)
    rw [returns, replied]

theorem billed (sound : σ.Sound) (slots : σ.cache.capacity ≠ 0) (a : Action ε α) : σ.Billed a := by
  cases a with
  | enter key ttl => exact billed_enter sound.steady slots key ttl
  | settle id outcome => exact billed_settle sound id outcome
  | delete key => exact billed_delete sound.steady key
  | peek key => exact .idle rfl rfl rfl rfl ⟨rfl, rfl, rfl, rfl⟩
  | advance span =>
    have replied : σ.reply (.advance span : Action ε α) = .nothing := by
      rw [reply, act]
      cases σ.now.add? span <;> rfl
    refine .idle rfl (by rw [returns, replied]) rfl rfl ?_
    rw [step, act]
    cases σ.now.add? span <;> exact ⟨rfl, rfl, rfl, rfl⟩

end Billed

open Counters in
structure Balanced (σ : Service α) (as : List (Action ε α)) : Prop where
  lookups : bumps hits σ as + bumps misses σ as + bumps bypasses σ as = count looks σ as
  ended : (σ.run as).running.length + count returns σ as = σ.running.length + count looks σ as
  loaders : (σ.run as).running.length + bumps loads σ as + bumps failures σ as =
    σ.running.length + bumps misses σ as + bumps bypasses σ as
  calls : (σ.run as).calls = σ.calls + bumps misses σ as + bumps bypasses σ as
  panics : bumps panics σ as ≤ bumps failures σ as
  size : (σ.run as).cache.size + bumps evictions σ as + bumps deletions σ as +
    count reloads σ as + count unmaps σ as = σ.cache.size + bumps misses σ as

section Balanced

variable {σ : Service α} {a : Action ε α} {as bs : List (Action ε α)}

theorem total_append (weight : Service α → Action ε α → Nat) (σ : Service α)
    (as bs : List (Action ε α)) :
    total weight σ (as ++ bs) = total weight σ as + total weight (σ.run as) bs := by
  induction as generalizing σ with
  | nil => simp [total]
  | cons a as ih => simp [total, ih, Nat.add_assoc]

theorem bumps_append (f : Counters → UInt64) :
    bumps f σ (as ++ bs) = bumps f σ as + bumps f (σ.run as) bs := total_append _ σ as bs

theorem count_append (p : Service α → Action ε α → Bool) :
    count p σ (as ++ bs) = count p σ as + count p (σ.run as) bs := total_append _ σ as bs

@[simp] theorem bumps_single (f : Counters → UInt64) : bumps f σ [a] = moved f σ a := rfl

@[simp] theorem count_single (p : Service α → Action ε α → Bool) :
    count p σ [a] = (p σ a).toNat := rfl

theorem Balanced.append (h : σ.Balanced as) (h' : (σ.run as).Balanced bs) :
    σ.Balanced (as ++ bs) := by
  constructor <;> simp only [bumps_append, count_append, run_append]
  · have := h.lookups
    have := h'.lookups
    omega
  · have := h.ended
    have := h'.ended
    omega
  · have := h.loaders
    have := h'.loaders
    omega
  · have := h.calls
    have := h'.calls
    omega
  · exact Nat.add_le_add h.panics h'.panics
  · have := h.size
    have := h'.size
    omega

theorem Figures.moved {c : Counters} {size running calls : Nat}
    (h : (σ.step a).Figures c size running calls) (f : Counters → UInt64) :
    moved f σ a = (f c - f σ.cache.counters).toNat := by
  rw [Service.moved, h.counters]

theorem Billed.balanced (h : σ.Billed a) : σ.Balanced [a] := by
  cases h with
  | idle looks returns reloads unmaps figures =>
    constructor <;> simp [figures.moved, figures.size, figures.running, figures.calls, *]
  | wait key ttl load is waits figures =>
    subst is
    constructor <;> simp [figures.moved, figures.size, figures.running, figures.calls, waits,
      Counters.record, looks, returns, reloads, unmaps]
  | hit key ttl value is served figures =>
    subst is
    constructor <;> simp [figures.moved, figures.size, figures.running, figures.calls, served,
      Counters.record, looks, returns, reloads, unmaps]
  | bypass key ttl call is runs unclaimed figures =>
    subst is
    constructor <;> simp [figures.moved, figures.size, figures.running, figures.calls, runs,
      unclaimed, Counters.record, looks, returns, reloads, unmaps]
  | reload key ttl call is runs claimed mapped figures =>
    subst is
    constructor <;> simp [figures.moved, figures.size, figures.running, figures.calls, runs,
      claimed, mapped, Counters.record, looks, returns, reloads, unmaps]
  | fill key ttl call is runs unmapped figures | evict key ttl call is runs unmapped figures =>
    subst is
    constructor <;> simp [figures.moved, figures.size, figures.running, figures.calls, runs,
      unmapped, Counters.record, looks, returns, reloads, unmaps]
  | finish id running size outcome is served one dropped figures =>
    subst is
    cases outcome with
    | ok value =>
      constructor <;> simp [figures.moved, figures.size, figures.running, figures.calls, served,
        one, ← dropped, Cache.loadEvent, Counters.record, looks, returns, reloads]
    | error error =>
      cases panicked : error.isPanic with
      | true =>
        constructor <;> simp [figures.moved, figures.size, figures.running, figures.calls, served,
          one, ← dropped, panicked, Cache.loadEvent, Counters.record, looks, returns, reloads]
      | false =>
        constructor <;> simp [figures.moved, figures.size, figures.running, figures.calls, served,
          one, ← dropped, panicked, Cache.loadEvent, Counters.record, looks, returns, reloads]
  | delete key size is dropped mapped figures =>
    subst is
    constructor <;> simp [figures.moved, figures.size, figures.running, figures.calls, mapped,
      ← dropped, Counters.record, looks, returns, reloads, unmaps]

theorem Sound.balanced (sound : σ.Sound) (slots : σ.cache.capacity ≠ 0) (as : List (Action ε α)) :
    σ.Balanced as := by
  induction as generalizing σ with
  | nil => constructor <;> simp [bumps, count, total]
  | cons a as ih =>
    have slots' : (σ.step a).cache.capacity ≠ 0 := by rwa [capacity_step]
    exact (billed sound slots a).balanced.append (ih (sound.step a) slots')

theorem add_bumps (f : Counters → UInt64) (σ : Service α) (as : List (Action ε α)) :
    f (σ.run as).cache.counters = f σ.cache.counters + .ofNat (bumps f σ as) := by
  induction as generalizing σ with
  | nil => exact (UInt64.add_zero _).symm
  | cons a as ih =>
    have rest : bumps f σ (a :: as) = moved f σ a + bumps f (σ.step a) as := rfl
    rw [run_cons, ih, rest, UInt64.ofNat_add, moved, UInt64.ofNat_toNat, ← UInt64.add_assoc,
      add_sub_cancel]

theorem toNat_eq_bumps {f : Counters → UInt64} (mem : f ∈ Counters.fields) {n : Nat}
    (few : bumps f (ofCapacity n : Service α) as < UInt64.size) :
    (f ((ofCapacity n : Service α).run as).cache.counters).toNat =
      bumps f (ofCapacity n : Service α) as := by
  have zero : f (ofCapacity n : Service α).cache.counters = 0 := Counters.zero_of_mem mem
  rw [add_bumps f, zero, UInt64.zero_add, UInt64.toNat_ofNat', Nat.mod_eq_of_lt few]

end Balanced

/-- What `as` has done to a cache of `n` slots that began empty, as the counters `c` have it. -/
structure Conserved (n : Nat) (as : List (Action ε α)) (σ : Service α) (c : Counters) : Prop where
  lookups : c.hits.toNat + c.misses.toNat + c.bypasses.toNat = count looks (ofCapacity n) as
  ended : count looks (ofCapacity n) as = count returns (ofCapacity n) as + σ.running.length
  loaders : c.loads.toNat + c.failures.toNat + σ.running.length =
    c.misses.toNat + c.bypasses.toNat
  calls : σ.calls = c.misses.toNat + c.bypasses.toNat
  panics : c.panics ≤ c.failures
  size : σ.cache.size + c.evictions.toNat + c.deletions.toNat +
    count reloads (ofCapacity n) as + count unmaps (ofCapacity n) as = c.misses.toNat

/-- Whatever is asked of a cache, in whatever order, its counters add up, as long as none of them
has wrapped around. -/
theorem conserved_run (n : Nat) (as : List (Action ε α)) (σ : Service α)
    (ran : σ = (ofCapacity (n + 1)).run as)
    (few : ∀ f ∈ Counters.fields, bumps f (ofCapacity (n + 1) : Service α) as < UInt64.size) :
    Conserved (n + 1) as σ σ.cache.counters := by
  subst ran
  have slots : (ofCapacity (n + 1) : Service α).cache.capacity ≠ 0 :=
    (Arena.capacity_ofFn (n + 1) _).trans_ne n.succ_ne_zero
  have balanced := (sound_ofCapacity (α := α) (n + 1)).balanced slots as
  have counts := fun f mem => toNat_eq_bumps mem (few f mem)
  simp only [Counters.fields, List.forall_mem_cons] at counts
  obtain ⟨hits, misses, bypasses, -, loads, failures, panics, evictions, deletions, -⟩ := counts
  have empty : (ofCapacity (n + 1) : Service α).cache.size = 0 := Std.TreeMap.size_emptyc
  have idle : (ofCapacity (n + 1) : Service α).running.length = 0 := rfl
  have unasked : (ofCapacity (n + 1) : Service α).calls = 0 := rfl
  constructor
  · rw [hits, misses, bypasses, balanced.lookups]
  · have := balanced.ended
    omega
  · have := balanced.loaders
    omega
  · have := balanced.calls
    omega
  · rw [UInt64.le_iff_toNat_le, panics, failures]
    exact balanced.panics
  · have := balanced.size
    omega

def mixed : List (Action String Nat) :=
  [.enter "a" ⟨5⟩, .enter "a" ⟨5⟩, .settle 0 (.ok 7), .enter "a" ⟨5⟩, .enter "b" ⟨5⟩,
    .enter "c" ⟨0⟩, .settle 1 (.error (.panicked "b")), .enter "a" ⟨1⟩, .settle 3 (.ok 8),
    .advance ⟨1⟩, .enter "a" ⟨5⟩, .delete "a", .settle 4 (.ok 9)]

theorem mixed_conserved :
    (∀ f ∈ Counters.fields, bumps f (ofCapacity 1 : Service Nat) mixed < UInt64.size) ∧
      Conserved 1 mixed ((ofCapacity 1).run mixed) ⟨1, 4, 1, 1, 3, 1, 1, 1, 1⟩ := by
  have few : ∀ f ∈ Counters.fields, bumps f (ofCapacity 1 : Service Nat) mixed < UInt64.size := by
    decide
  have counters : ((ofCapacity 1 : Service Nat).run mixed).cache.counters =
      ⟨1, 4, 1, 1, 3, 1, 1, 1, 1⟩ := by decide
  refine ⟨few, ?_⟩
  rw [← counters]
  exact conserved_run 0 mixed _ rfl few

end Service

end Arbiter
