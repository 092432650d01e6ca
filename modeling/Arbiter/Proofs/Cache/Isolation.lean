import Arbiter.Proofs.Cache.Service.Promotion

namespace Arbiter

universe u v

variable {α : Type u} {ε : Type v}

namespace Service

/-- `key` keeps its slot and all that is in it, and its claim stays as good as it was. -/
structure Undisturbed (σ σ' : Service α) (key : String) : Prop where
  table : σ'.cache.table[key]? = σ.cache.table[key]?
  cell : ∀ s, σ.cache.table[key]? = some s → σ'.cache.cell s = σ.cache.cell s
  current : ∀ call : Call, call.key = key → (σ'.Current call ↔ σ.Current call)

structure Isolates (σ : Service α) (a : Action ε α) : Prop where
  apart : (∀ key, ¬ Presses key σ a) →
    ∀ j, σ.subject? a ≠ some j → σ.Undisturbed (σ.step a) j
  order : (∀ key, ¬ Presses key σ a) →
    (σ.step a).cache.keys.filter (σ.subject? a ≠ some ·) =
      σ.cache.keys.filter (σ.subject? a ≠ some ·)
  room : ∀ key, Presses key σ a → ∃ old s, σ.cache.Victim old ∧ Evicts old s σ a ∧
    (∀ j, j ≠ key → j ≠ old → σ.Undisturbed (σ.step a) j) ∧
    (σ.step a).cache.keys = key :: σ.cache.keys.erase old
  full : ∀ old s, Evicts old s σ a → σ.cache.links.freeStack = [] ∧ ∃ key, Presses key σ a
  spared : ∀ old s, Evicts old s σ a → σ.cache.Loading old →
    ∀ j ∈ σ.cache.keys, σ.cache.Loading j

variable {σ σ' : Service α} {a : Action ε α} {r : Reply ε α} {key old j : String}

section Undisturbed

theorem undisturbed_of (table : σ'.cache.table[j]? = σ.cache.table[j]?)
    (cell : ∀ s, σ.cache.table[j]? = some s → σ'.cache.cell s = σ.cache.cell s)
    (running : ∀ call : Call, call.key = j → ∀ t, call.claim = some t →
      (call ∈ σ'.running ↔ call ∈ σ.running)) : σ.Undisturbed σ' j := by
  refine ⟨table, cell, fun call is => ?_⟩
  have holds (t : Ticket) : σ'.cache.holds call.key t = σ.cache.holds call.key t := by
    rw [Bool.eq_iff_iff, Cache.holds_iff, Cache.holds_iff, is, table]
    refine and_congr_right fun mapped => ?_
    rw [cell t.slot mapped]
  constructor
  · rintro ⟨mem, t, claim, good⟩
    exact ⟨(running call is t claim).1 mem, t, claim, holds t ▸ good⟩
  · rintro ⟨mem, t, claim, good⟩
    exact ⟨(running call is t claim).2 mem, t, claim, holds t ▸ good⟩

theorem undisturbed_beside (sound : σ.Sound) {s : Slot} {x : Cell α}
    (mapped : σ.cache.table[key]? = some s) (ne : j ≠ key)
    (table : σ'.cache.table[j]? = σ.cache.table[j]?)
    (cell : σ'.cache.cell = Function.update σ.cache.cell s x)
    (running : ∀ call : Call, call.key = j → ∀ t, call.claim = some t →
      (call ∈ σ'.running ↔ call ∈ σ.running)) : σ.Undisturbed σ' j := by
  refine undisturbed_of table (fun t mapped' => ?_) running
  rw [cell, Function.update_of_ne]
  rintro rfl
  exact ne (Cache.Coherent.table_injective sound.steady mapped' mapped)

theorem mem_rest_iff (ticketed : σ.Ticketed) {done call : Call} (mem : done ∈ σ.running)
    (ne : call.key ≠ done.key) : call ∈ σ.running.filter (·.id != done.id) ↔ call ∈ σ.running := by
  constructor
  · exact List.mem_of_mem_filter
  · intro mem'
    refine ticketed.mem_rest mem' mem ?_
    rintro rfl
    exact ne rfl

theorem undisturbed_or_of_claimed {s : Slot} {lag : Nat} {new : Call}
    (claimed : σ.cache.Claimed key s lag σ'.cache) (running : σ'.running = new :: σ.running)
    (is : new.key = key) (ne : j ≠ key) :
    σ.Undisturbed σ' j ∨ σ.cache.table[j]? = some s ∧ σ'.cache.table[j]? = none := by
  by_cases owned : σ.cache.table[j]? = some s
  · refine .inr ⟨owned, Option.eq_none_iff_forall_ne_some.2 fun t owned' => ?_⟩
    obtain ⟨mapped, moved⟩ := (claimed.others j ne t).1 owned'
    exact moved (Option.some.inj (mapped.symm.trans owned))
  · have spared {t : Slot} (mapped : σ.cache.table[j]? = some t) : t ≠ s := by
      rintro rfl
      exact owned mapped
    refine .inl (undisturbed_of ?_ (fun t mapped => ?_) fun call at_j t _ => ?_)
    · apply Option.ext
      intro t
      exact (claimed.others j ne t).trans (and_iff_left_of_imp spared)
    · rw [claimed.cell, Function.update_of_ne (spared mapped)]
    · rw [running, List.mem_cons, or_iff_right]
      rintro rfl
      exact ne (at_j.symm.trans is)

theorem Stepped.undisturbed_or (h : Stepped σ σ' a r) (sound : σ.Sound)
    (other : σ.subject? a ≠ some j) : σ.Undisturbed σ' j ∨
      (∃ key ttl, a = .enter key ttl) ∧ (∃ s, σ.cache.table[j]? = some s) ∧
        σ'.cache.table[j]? = none := by
  cases h with
  | read _ _ _ _ table cell _ running =>
    refine .inl (undisturbed_of (by rw [table]) (fun s _ => by rw [cell]) fun call _ t _ => ?_)
    rw [running]
  | bypass _ _ new is table cell _ running =>
    refine .inl (undisturbed_of (by rw [table]) (fun s _ => by rw [cell]) fun call _ t claim => ?_)
    rw [running, List.mem_cons, or_iff_right]
    rintro rfl
    rw [is] at claim
    cases claim
  | claim key ttl s lag new is claimed _ running =>
    have ne : j ≠ key := fun e => other (congrArg some e.symm)
    have at_key : new.key = key := by rw [is]
    refine (undisturbed_or_of_claimed claimed running at_key ne).imp_right ?_
    rintro ⟨owned, gone⟩
    exact ⟨⟨key, ttl, rfl⟩, ⟨s, owned⟩, gone⟩
  | store done t value mem claim holds table cell _ running =>
    have ne : j ≠ done.key := fun e => other (e ▸ subject?_settle sound.ticketed mem _)
    have mapped := (Cache.holds_iff.1 holds).1
    refine .inl (undisturbed_beside sound mapped ne (by rw [table]) cell fun call is _ _ => ?_)
    rw [running, mem_rest_iff sound.ticketed mem (is ▸ ne)]
  | drop done t error mem claim holds table cell _ running =>
    have ne : j ≠ done.key := fun e => other (e ▸ subject?_settle sound.ticketed mem _)
    have mapped := (Cache.holds_iff.1 holds).1
    refine .inl (undisturbed_beside sound mapped ne ?_ cell fun call is _ _ => ?_)
    · rw [table, Cache.getElem?_erase_of_ne ne]
    · rw [running, mem_rest_iff sound.ticketed mem (is ▸ ne)]
  | discard done outcome mem displaced same _ running =>
    have ne : j ≠ done.key := fun e => other (e ▸ subject?_settle sound.ticketed mem _)
    refine .inl (undisturbed_of ?_ (fun _ _ => ?_) fun call is _ _ => ?_)
    · rw [same]
      rfl
    · rw [same]
      rfl
    · rw [running, mem_rest_iff sound.ticketed mem (is ▸ ne)]
  | delete key s mapped table cell _ running =>
    have ne : j ≠ key := fun e => other (congrArg some e.symm)
    refine .inl (undisturbed_beside sound mapped ne ?_ cell fun call _ _ _ => ?_)
    · rw [table, Cache.getElem?_erase_of_ne ne]
    · rw [running]

theorem undisturbed_or_evicts (sound : σ.Sound) (a : Action ε α)
    (other : σ.subject? a ≠ some j) : σ.Undisturbed (σ.step a) j ∨ ∃ s, Evicts j s σ a := by
  refine ((stepped sound.steady a).2.undisturbed_or sound other).imp_right ?_
  rintro ⟨enter, ⟨s, mapped⟩, gone⟩
  exact ⟨s, enter, mapped, gone⟩

end Undisturbed

section Evicts

variable {s : Slot}

theorem Evicts.mem_keys (h : Evicts old s σ a) (sound : σ.Sound) : old ∈ σ.cache.keys :=
  sound.steady.mem_keys_iff.2 ⟨s, h.2.1⟩

theorem Evicts.not_mem_keys (h : Evicts old s σ a) (sound : σ.Sound) :
    old ∉ (σ.step a).cache.keys := (sound.step a).steady.not_mem_keys h.2.2

theorem evicts_of_presses (presses : Presses key σ a) (sound : σ.Sound) (mem : old ∈ σ.cache.keys)
    (out : old ∉ (σ.step a).cache.keys) : ∃ s, Evicts old s σ a := by
  obtain ⟨s, owned⟩ := sound.steady.mem_keys_iff.1 mem
  obtain ⟨ttl, _, rfl, -⟩ := presses.claims
  refine ⟨s, ⟨key, ttl, rfl⟩, owned, Option.eq_none_iff_forall_ne_some.2 fun t mapped => ?_⟩
  exact out ((sound.step _).steady.mem_keys_iff.2 ⟨t, mapped⟩)

theorem drops_or_presses (sound : σ.Sound) (mem : old ∈ σ.cache.keys)
    (out : old ∉ (σ.step a).cache.keys) :
    (Deletes old σ a ∨ Fails old σ a) ∨ ∃ key, Presses key σ a ∧ σ.cache.Victim old := by
  have gone {other : String} (out : old ∉ σ.cache.keys.erase other) : old = other := by
    by_contra ne
    exact out ((List.mem_erase_of_ne ne).2 mem)
  cases ranked sound a with
  | promote key _ _ keys =>
    rw [keys, List.mem_cons, not_or] at out
    exact absurd (gone out.2) out.1
  | evict key other presses victim keys =>
    rw [keys, List.mem_cons, not_or] at out
    exact .inr ⟨key, presses, gone out.2 ▸ victim⟩
  | drop key drops _ keys =>
    rw [keys] at out
    exact .inl (gone out ▸ drops)
  | keep _ keys => exact absurd mem (keys ▸ out)

theorem Evicts.presses (h : Evicts old s σ a) (sound : σ.Sound) :
    ∃ key, Presses key σ a ∧ σ.cache.Victim old := by
  refine (drops_or_presses sound (h.mem_keys sound) (h.not_mem_keys sound)).resolve_left ?_
  obtain ⟨other, ttl, rfl⟩ := h.1
  rintro (⟨no, -⟩ | ⟨_, _, no, -⟩) <;> cases no

theorem Presses.evicts (h : Presses key σ a) (sound : σ.Sound) : ∃ old s, σ.cache.Victim old ∧
    Evicts old s σ a ∧ (σ.step a).cache.keys = key :: σ.cache.keys.erase old := by
  have promotes : Promotes key σ a := .claim h.claims
  cases ranked sound a with
  | promote other promotes' roomy =>
    cases promotes.unique promotes' sound.ticketed
    exact absurd h roomy
  | evict other old presses victim keys =>
    cases promotes.unique (.claim presses.claims) sound.ticketed
    have mem := victim.mem_keys
    have ne : old ≠ key := ne_of_mem_of_not_mem mem (sound.steady.not_mem_keys h.unmapped)
    have out : old ∉ (σ.step a).cache.keys := by
      rw [keys, List.mem_cons, not_or]
      exact ⟨ne, (Cache.Coherent.keys_nodup sound.steady).not_mem_erase⟩
    obtain ⟨s, evicts⟩ := evicts_of_presses h sound mem out
    exact ⟨old, s, victim, evicts, keys⟩
  | drop _ _ quiet => exact absurd promotes (quiet key)
  | keep quiet => exact absurd promotes (quiet key)

theorem filter_erase {xs : List String} (nodup : xs.Nodup) (x : String) :
    (xs.erase x).filter (some x ≠ some ·) = xs.filter (some x ≠ some ·) := by
  rw [nodup.erase_eq_filter, List.filter_filter]
  apply List.filter_congr
  intro y _
  by_cases e : y = x
  · simp [e]
  · simp [e]

theorem Sound.order (sound : σ.Sound) (roomy : ∀ key, ¬ Presses key σ a) :
    (σ.step a).cache.keys.filter (σ.subject? a ≠ some ·) =
      σ.cache.keys.filter (σ.subject? a ≠ some ·) := by
  have nodup := Cache.Coherent.keys_nodup sound.steady
  cases ranked sound a with
  | promote key promotes _ keys =>
    rw [keys, promotes.subject? sound.ticketed, List.filter_cons_of_neg (by simp)]
    exact filter_erase nodup key
  | evict key _ presses => exact absurd presses (roomy key)
  | drop key drops _ keys =>
    rw [keys, subject?_of_drops sound.ticketed drops]
    exact filter_erase nodup key
  | keep _ keys => rw [keys]

theorem Sound.isolates (sound : σ.Sound) (a : Action ε α) : σ.Isolates a where
  apart roomy j other := by
    refine (undisturbed_or_evicts sound a other).resolve_right ?_
    rintro ⟨s, evicts⟩
    obtain ⟨key, presses, -⟩ := evicts.presses sound
    exact roomy key presses
  order := sound.order
  room key presses := by
    obtain ⟨old, s, victim, evicts, keys⟩ := presses.evicts sound
    refine ⟨old, s, victim, evicts, fun j ne ne' => ?_, keys⟩
    have subject := (Promotes.claim presses.claims).subject? sound.ticketed
    refine (undisturbed_or_evicts sound a fun is => ne ?_).resolve_right ?_
    · exact Option.some.inj (is.symm.trans subject)
    · rintro ⟨t, evicts'⟩
      have out := evicts'.not_mem_keys sound
      rw [keys, List.mem_cons, not_or] at out
      exact out.2 ((List.mem_erase_of_ne ne').2 (evicts'.mem_keys sound))
  full old s evicts := by
    obtain ⟨key, presses, -⟩ := evicts.presses sound
    exact ⟨presses.full, key, presses⟩
  spared old s evicts loading j mem := by
    obtain ⟨_, -, victim⟩ := evicts.presses sound
    cases victim with
    | idle _ _ _ idle => exact absurd loading idle
    | busy _ _ busy => exact busy j mem

end Evicts

/-- In every state that any number of callers lead to, a step leaves the keys it is not about as
they are. One of them is evicted where a key is claimed that has no slot while none is free: the
least recently used one that is not loading, or, when all are, the least recently used. -/
theorem isolates_run (n : Nat) (as : List (Action ε α)) (a : Action ε α) :
    ((ofCapacity n).run as).Isolates a := ((sound_ofCapacity n).run as).isolates a

example : ((ofCapacity 2).run ([.enter "a" ⟨5⟩, .enter "b" ⟨5⟩, .settle 1 (.ok 7),
    .enter "c" ⟨5⟩] : List (Action String Nat))).cache.keys = ["c", "a"] := by
  decide

end Service

end Arbiter
