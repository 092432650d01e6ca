import Arbiter.Proofs.Cache.Service.Tickets

namespace Arbiter

universe u v

variable {α : Type u} {ε : Type v}

namespace Service

def Deletes (key : String) (σ : Service α) (a : Action ε α) : Prop :=
  a = .delete key ∧ σ.reply a = .deleted true

def Evicts (key : String) (s : Slot) (σ : Service α) (a : Action ε α) : Prop :=
  (∃ other ttl, a = .enter other ttl) ∧ σ.cache.table[key]? = some s ∧
    (σ.step a).cache.table[key]? = none

/-- A claim is taken away: its key is deleted while it is good, or its slot is evicted. -/
def Displaces (key : String) (t : Ticket) (σ : Service α) (a : Action ε α) : Prop :=
  (σ.cache.holds key t = true ∧ Deletes key σ a) ∨ ∃ owner, Evicts owner t.slot σ a

def Claims (key : String) (σ : Service α) (a : Action ε α) : Prop :=
  ∃ ttl call, a = .enter key ttl ∧ σ.reply a = .runs call ∧ call.claim ≠ none

/-- Some step of the run is a `P`. -/
def Occurs (P : Service α → Action ε α → Prop) : Service α → List (Action ε α) → Prop
  | _, [] => False
  | σ, a :: as => P σ a ∨ Occurs P (σ.step a) as

@[simp] theorem occurs_nil {P : Service α → Action ε α → Prop} {σ : Service α} :
    ¬ Occurs P σ [] := id

@[simp] theorem occurs_cons {P : Service α → Action ε α → Prop} {σ : Service α} {a : Action ε α}
    {as : List (Action ε α)} : Occurs P σ (a :: as) ↔ P σ a ∨ Occurs P (σ.step a) as := Iff.rfl

@[simp] theorem occurs_append {P : Service α → Action ε α → Prop} {σ : Service α}
    {as bs : List (Action ε α)} :
    Occurs P σ (as ++ bs) ↔ Occurs P σ as ∨ Occurs P (σ.run as) bs := by
  induction as generalizing σ with
  | nil => simp
  | cons a as ih => simp [ih, or_assoc]

theorem turn_of_generation {m n : Nat} (e : UInt64.ofNat m = .ofNat n) (le : n ≤ m)
    (lt : m < n + UInt64.size) : n = m := by
  have e := congrArg UInt64.toNat e
  rw [UInt64.toNat_ofNat', UInt64.toNat_ofNat'] at e
  simp only [UInt64.size] at lt
  omega

theorem calls_le {σ : Service α} (sound : σ.Sound) (a : Action ε α) :
    σ.calls ≤ (σ.step a).calls := by
  rcases (stepped sound.steady a).2.running_cases sound.ticketed with
    ⟨-, calls⟩ | ⟨_, -, -, calls, -⟩ <;> omega

theorem mem_of_mem_run {σ : Service α} (sound : σ.Sound) {call : Call} (lt : call.id < σ.calls)
    {as : List (Action ε α)} (still : call ∈ (σ.run as).running) : call ∈ σ.running := by
  induction as generalizing σ with
  | nil => exact still
  | cons a as ih =>
    have mem := ih (sound.step a) (Nat.lt_of_lt_of_le lt (calls_le sound a)) still
    -- A new call has a new number, so this one is older than the step.
    rcases (stepped sound.steady a).2.running_cases sound.ticketed with
      ⟨fewer, -⟩ | ⟨new, running, id, -, -⟩
    · exact fewer.subset mem
    · rw [running, List.mem_cons] at mem
      apply mem.resolve_left
      rintro rfl
      omega

theorem Stepped.mem_running {σ σ' : Service α} {a : Action ε α} {r : Reply ε α} {call : Call}
    (h : Stepped σ σ' a r) (mem : call ∈ σ'.running) :
    call ∈ σ.running ∨ a = .enter call.key call.ttl ∧ r = .runs call := by
  cases h with
  | read _ _ _ _ _ _ _ running => exact .inl (running ▸ mem)
  | bypass key ttl new is _ _ _ running =>
    rw [running, List.mem_cons] at mem
    apply mem.symm.imp_right
    rintro rfl
    subst is
    exact ⟨rfl, rfl⟩
  | claim key ttl _ _ new is _ _ running =>
    rw [running, List.mem_cons] at mem
    apply mem.symm.imp_right
    rintro rfl
    subst is
    exact ⟨rfl, rfl⟩
  | store _ _ _ _ _ _ _ _ _ running => exact .inl (List.mem_of_mem_filter (running ▸ mem))
  | drop _ _ _ _ _ _ _ _ _ running => exact .inl (List.mem_of_mem_filter (running ▸ mem))
  | discard _ _ _ _ _ _ running => exact .inl (List.mem_of_mem_filter (running ▸ mem))
  | delete _ _ _ _ _ _ running => exact .inl (running ▸ mem)

theorem started {n : Nat} {as : List (Action ε α)} {call : Call}
    (mem : call ∈ ((ofCapacity n : Service α).run as).running) :
    ∃ before during, as = before ++ .enter call.key call.ttl :: during ∧
      ((ofCapacity n : Service α).run before).reply
        (.enter call.key call.ttl : Action ε α) = .runs call := by
  induction as using List.reverseRecOn with
  | nil => cases mem
  | append_singleton as a ih =>
    rw [run_append] at mem
    have stepped := (stepped ((sound_ofCapacity n).run as).steady a).2
    rcases stepped.mem_running mem with mem | ⟨is, runs⟩
    · obtain ⟨before, during, rfl, runs⟩ := ih mem
      exact ⟨before, during ++ [a], by simp, runs⟩
    · subst is
      exact ⟨as, [], rfl, runs⟩

/-- A good claim, and no other ticket for its slot that could be taken for it. -/
structure Holding (σ : Service α) (call : Call) (t : Ticket) : Prop where
  mem : call ∈ σ.running
  claim : call.claim = some t
  holds : σ.cache.holds call.key t = true
  turn : call.turn = σ.turns t.slot
  apart : σ.UnwrappedAt t.slot

section Holding

variable {σ σ' : Service α} {call m : Call} {t u : Ticket}

theorem Ticketed.turn_eq (h : σ.Ticketed) (mem : call ∈ σ.running) (claim : call.claim = some t)
    (holds : σ.cache.holds call.key t = true) (lt : σ.turns t.slot < call.turn + UInt64.size) :
    call.turn = σ.turns t.slot := by
  obtain ⟨stamp, le⟩ := h.stamp call mem t claim
  refine turn_of_generation ?_ le lt
  rw [← h.generation, ← stamp]
  exact (Cache.holds_iff.1 holds).2.2

theorem Ticketed.holding (h : σ.Ticketed) (unwrapped : σ.UnwrappedAt t.slot)
    (mem : call ∈ σ.running) (claim : call.claim = some t)
    (holds : σ.cache.holds call.key t = true) : σ.Holding call t :=
  ⟨mem, claim, holds, h.turn_eq mem claim holds (unwrapped call mem t claim rfl), unwrapped⟩

theorem holds_of_claim {key : String} {ttl : Duration} (sound : σ.Sound)
    (runs : σ.reply (.enter key ttl : Action ε α) = .runs call) (claim : call.claim = some t) :
    call.key = key ∧ call.ttl = ttl ∧ call ∈ (σ.step (.enter key ttl : Action ε α)).running ∧
      (σ.step (.enter key ttl : Action ε α)).cache.holds call.key t = true := by
  have stepped := (stepped sound.steady (.enter key ttl : Action ε α)).2
  generalize σ.step (.enter key ttl : Action ε α) = σ' at stepped ⊢
  rw [runs] at stepped
  cases stepped with
  | read _ _ idle => exact absurd rfl (idle call)
  | bypass _ _ _ is =>
    rw [is] at claim
    cases claim
  | claim _ _ s lag _ is claimed _ running =>
    have mem : call ∈ σ'.running := running ▸ List.mem_cons_self
    subst is
    cases claim
    refine ⟨rfl, rfl, mem, Cache.holds_iff.2 ⟨claimed.mapped, ?_, ?_⟩⟩
    · rw [claimed.cell, Function.update_self]
    · rw [claimed.cell, Function.update_self]

namespace Holding

theorem eq_of_slot (h : σ.Holding call t) (ticketed : σ.Ticketed) (mem : m ∈ σ.running)
    (claim : m.claim = some u) (holds : σ.cache.holds m.key u = true) (same : u.slot = t.slot) :
    m = call := by
  have lt := h.apart m mem u claim same
  rw [← same] at lt
  have turn := ticketed.turn_eq mem claim holds lt
  apply ticketed.one m mem call h.mem u t claim h.claim same
  rw [turn, h.turn, same]

theorem carry (h : σ.Holding call t) (mem : call ∈ σ'.running)
    (table : σ'.cache.table[call.key]? = some t.slot)
    (cell : σ'.cache.cell t.slot = σ.cache.cell t.slot) (turns : σ'.turns t.slot = σ.turns t.slot)
    (others : ∀ m ∈ σ'.running, ∀ u, m.claim = some u → u.slot = t.slot → m ∈ σ.running) :
    σ'.Holding call t := by
  refine ⟨mem, h.claim, ?_, ?_, ?_⟩
  · obtain ⟨-, loading, generation⟩ := Cache.holds_iff.1 h.holds
    rw [Cache.holds_iff, cell]
    exact ⟨table, loading, generation⟩
  · rw [turns]
    exact h.turn
  · intro m hm u claim same
    rw [turns]
    exact h.apart m (others m hm u claim same) u claim same

theorem ne_slot (h : σ.Holding call t) (ticketed : σ.Ticketed) (mem : m ∈ σ.running)
    (claim : m.claim = some u) (holds : σ.cache.holds m.key u = true)
    (still : call ∈ σ.running.filter (·.id != m.id)) : t.slot ≠ u.slot := by
  intro same
  have is := h.eq_of_slot ticketed mem claim holds same.symm
  subst is
  simp at still

theorem step (h : σ.Holding call t) (sound : σ.Sound) {a : Action ε α}
    (still : call ∈ (σ.step a).running) (kept : ¬ Displaces call.key t σ a) :
    (σ.step a).Holding call t := by
  have undeleted : ¬ Deletes call.key σ a := fun deletes => kept (.inl ⟨h.holds, deletes⟩)
  have unevicted : ¬ Evicts call.key t.slot σ a := fun evicts => kept (.inr ⟨call.key, evicts⟩)
  obtain ⟨mapped, loading, -⟩ := Cache.holds_iff.1 h.holds
  have stepped := (stepped sound.steady a).2
  generalize after : σ.step a = σ' at stepped still unevicted ⊢
  generalize replied : σ.reply a = r at stepped
  cases stepped with
  | read _ _ _ _ table cell turns running =>
    apply h.carry still (table ▸ mapped) (by rw [cell]) (by rw [turns])
    intro m hm _ _ _
    exact running ▸ hm
  | bypass _ _ new is table cell turns running =>
    apply h.carry still (table ▸ mapped) (by rw [cell]) (by rw [turns])
    intro m hm u claim _
    rw [running, List.mem_cons] at hm
    apply hm.resolve_left
    rintro rfl
    rw [is] at claim
    cases claim
  | claim key ttl s lag new is claimed turns running =>
    have ne_key : call.key ≠ key := by
      intro e
      rw [e] at mapped
      obtain ⟨rfl, busy⟩ := claimed.idle _ mapped
      exact busy loading
    -- Its key is loading and so not the one claimed; its slot could be taken by eviction only.
    have ne_slot : t.slot ≠ s := by
      rintro rfl
      refine unevicted ⟨⟨key, ttl, rfl⟩, mapped, ?_⟩
      rw [after, Option.eq_none_iff_forall_ne_some]
      intro u owned
      obtain ⟨owned, ne⟩ := (claimed.others call.key ne_key u).1 owned
      rw [mapped] at owned
      exact ne (Option.some.inj owned).symm
    refine h.carry still ((claimed.others call.key ne_key t.slot).2 ⟨mapped, ne_slot⟩) ?_ ?_ ?_
    · rw [claimed.cell, Function.update_of_ne ne_slot]
    · rw [turns, Function.update_of_ne ne_slot]
    · intro m hm u claim same
      rw [running, List.mem_cons] at hm
      apply hm.resolve_left
      rintro rfl
      rw [is] at claim
      cases claim
      exact ne_slot same.symm
  | store done u value mem claim holds table cell turns running =>
    have ne_slot := h.ne_slot sound.ticketed mem claim holds (running ▸ still)
    refine h.carry still (table ▸ mapped) ?_ (by rw [turns]) ?_
    · rw [cell, Function.update_of_ne ne_slot]
    · intro m hm _ _ _
      exact List.mem_of_mem_filter (running ▸ hm)
  | drop done u error mem claim holds table cell turns running =>
    have ne_slot := h.ne_slot sound.ticketed mem claim holds (running ▸ still)
    refine h.carry still ?_ ?_ ?_ ?_
    · rw [table]
      exact Cache.getElem?_erase_of_slot_ne (Cache.holds_iff.1 holds).1 mapped ne_slot
    · rw [cell, Function.update_of_ne ne_slot]
    · rw [turns, Function.update_of_ne ne_slot]
    · intro m hm _ _ _
      exact List.mem_of_mem_filter (running ▸ hm)
  | discard done outcome mem displaced same turns running =>
    apply h.carry still (same ▸ mapped) (by rw [same]; rfl) (by rw [turns])
    intro m hm _ _ _
    exact List.mem_of_mem_filter (running ▸ hm)
  | delete key s owned table cell turns running =>
    have ne_key : call.key ≠ key := by
      rintro rfl
      exact undeleted ⟨rfl, replied⟩
    have ne_slot : t.slot ≠ s := by
      rintro rfl
      exact ne_key (Cache.Coherent.table_injective sound.steady mapped owned)
    refine h.carry still ?_ ?_ ?_ ?_
    · rw [table, Cache.getElem?_erase_of_ne ne_key]
      exact mapped
    · rw [cell, Function.update_of_ne ne_slot]
    · rw [turns, Function.update_of_ne ne_slot]
    · intro m hm _ _ _
      exact running ▸ hm

theorem run (h : σ.Holding call t) (sound : σ.Sound) {as : List (Action ε α)}
    (still : call ∈ (σ.run as).running) (kept : ¬ Occurs (Displaces call.key t) σ as) :
    (σ.run as).Holding call t := by
  induction as generalizing σ with
  | nil => exact h
  | cons a as ih =>
    rw [occurs_cons, not_or] at kept
    have lt := Nat.lt_of_lt_of_le (sound.ticketed.id_lt call h.mem) (calls_le sound a)
    have mem := mem_of_mem_run (sound.step a) lt still
    exact ih (h.step sound mem kept.1) (sound.step a) still kept.2

end Holding

end Holding

end Service

end Arbiter
