import Arbiter.Proofs.Cache.Service.History
import Mathlib.Data.List.Infix

namespace Arbiter

universe u v

variable {α : Type u} {ε : Type v}

namespace Service

variable (ε) in
structure Singleflight (σ : Service α) : Prop where
  ids : (σ.running.map Call.id).Nodup
  mapped : ∀ s, (σ.cache.cell s).content = .loading →
    ∃ key : String, σ.cache.table[key]? = some s
  loaded : ∀ s, (σ.cache.cell s).content = .loading →
    ∃! call, σ.Current call ∧ ∃ t, call.claim = some t ∧ t.slot = s
  one_slot : ∀ l m t u, σ.Current l → σ.Current m → l.claim = some t → m.claim = some u →
    t.slot = u.slot → l = m
  one_key : ∀ l m, σ.Current l → σ.Current m → l.key = m.key → l = m
  waits : ∀ key ttl t, ttl.isZero = false →
    (σ.reply (.enter key ttl : Action ε α) = .waits t ↔
      ∃ call, σ.Current call ∧ call.key = key ∧ call.claim = some t)
  runs : ∀ key ttl call, ttl.isZero = false →
    σ.reply (.enter key ttl : Action ε α) = .runs call →
    ∀ other, σ.Current other → other.key ≠ key
  idle : (∀ call ∈ σ.running, call.claim = none) → ∀ s, (σ.cache.cell s).content ≠ .loading
  landed : (∀ call ∈ σ.running, call.claim = none) →
    ∀ (key : String) (s : Slot), σ.cache.table[key]? = some s →
      ∃ value expiry, (σ.cache.cell s).content = .stored value expiry

/-- From the claim of a key until its call ends or the claim is taken away, gets of the key wait
for it. -/
def Exclusive (σ : Service α) (as : List (Action ε α)) : Prop :=
  ∀ older key ttl call t between ttl' newer,
    as = older ++ .enter key ttl :: between ++ .enter key ttl' :: newer →
    (σ.run older).reply (.enter key ttl : Action ε α) = .runs call → call.claim = some t →
    call ∈ (σ.run (older ++ .enter key ttl :: between)).running →
    ¬ Occurs (Displaces key t) (σ.run (older ++ [.enter key ttl])) between →
    ttl'.isZero = false →
    (σ.run (older ++ .enter key ttl :: between)).reply (.enter key ttl' : Action ε α) = .waits t

section Enter

variable {σ : Service α} {key : String} {ttl : Duration} {t : Ticket}

theorem waits_of_holds (positive : ttl.isZero = false) (holds : σ.cache.holds key t = true) :
    σ.reply (.enter key ttl : Action ε α) = .waits t := by
  obtain ⟨mapped, loading, generation⟩ := Cache.holds_iff.1 holds
  have looked : σ.cache.lookup σ.now key = (σ.cache, .inFlight t) := by
    rw [Cache.lookup, mapped]
    simp [loading, Content.isLoading, generation]
  rw [reply, act, σ.cache.enter_lookup σ.now key positive, looked]
  rfl

theorem holds_of_waits (steady : σ.cache.Steady)
    (waits : σ.reply (.enter key ttl : Action ε α) = .waits t) :
    σ.cache.holds key t = true := by
  cases zero : ttl.isZero with
  | true =>
    rw [reply, act, σ.cache.enter_bypass σ.now key zero] at waits
    cases waits
  | false =>
    rw [reply, act, σ.cache.enter_lookup σ.now key zero] at waits
    have looked := (steady.lookup σ.now key).2
    generalize σ.cache.lookup σ.now key = result at waits looked
    obtain ⟨c, lookup⟩ := result
    cases looked <;> cases waits
    exact Cache.holds_iff.2 ⟨‹_›, ‹_›, rfl⟩

end Enter

section Current

variable {σ : Service α} {l m call : Call} {t u : Ticket} {s : Slot}

theorem Current.holds (h : σ.Current call) (claim : call.claim = some t) :
    σ.cache.holds call.key t = true := by
  obtain ⟨-, u, claim', holds⟩ := h
  rw [claim] at claim'
  cases claim'
  exact holds

namespace Sound

theorem eq_of_slot (sound : σ.Sound) (unwrapped : σ.Unwrapped) (hl : σ.Current l)
    (hm : σ.Current m) (claim : l.claim = some t) (claim' : m.claim = some u)
    (same : t.slot = u.slot) : l = m := by
  have holding := sound.ticketed.holding (unwrapped.slot u.slot) hm.1 claim' (hm.holds claim')
  exact holding.eq_of_slot sound.ticketed hl.1 claim (hl.holds claim) same

theorem eq_of_key (sound : σ.Sound) (unwrapped : σ.Unwrapped) (hl : σ.Current l)
    (hm : σ.Current m) (same : l.key = m.key) : l = m := by
  obtain ⟨-, t, claim, holds⟩ := id hl
  obtain ⟨-, u, claim', holds'⟩ := id hm
  apply sound.eq_of_slot unwrapped hl hm claim claim'
  have owned := (Cache.holds_iff.1 holds).1
  rw [same, (Cache.holds_iff.1 holds').1] at owned
  exact (Option.some.inj owned).symm

theorem current_of_loading (sound : σ.Sound) (loading : (σ.cache.cell s).content = .loading) :
    ∃ call, σ.Current call ∧ ∃ t, call.claim = some t ∧ t.slot = s := by
  obtain ⟨call, mem, t, claim, rfl, turn, mapped⟩ := sound.ticketed.flown s loading
  have holds := sound.ticketed.holds_of_turn mem claim turn mapped loading
  exact ⟨call, ⟨mem, t, claim, holds⟩, t, claim, rfl⟩

theorem not_loading (sound : σ.Sound) (unclaimed : ∀ call ∈ σ.running, call.claim = none)
    (s : Slot) : (σ.cache.cell s).content ≠ .loading := by
  intro loading
  obtain ⟨call, ⟨mem, -⟩, t, claim, -⟩ := sound.current_of_loading loading
  rw [unclaimed call mem] at claim
  cases claim

theorem waits_iff (sound : σ.Sound) {key : String} {ttl : Duration}
    (positive : ttl.isZero = false) : σ.reply (.enter key ttl : Action ε α) = .waits t ↔
      ∃ call, σ.Current call ∧ call.key = key ∧ call.claim = some t := by
  constructor
  · intro waits
    have holds := holds_of_waits sound.steady waits
    obtain ⟨mapped, loading, generation⟩ := Cache.holds_iff.1 holds
    obtain ⟨call, mem, u, claim, at_t, turn, mapped'⟩ := sound.ticketed.flown t.slot loading
    have is_key := Cache.Coherent.table_injective sound.steady mapped' mapped
    have is_ticket : u = t := by
      rw [sound.ticketed.generation, ← turn, ← (sound.ticketed.stamp call mem u claim).1]
        at generation
      cases u
      cases t
      exact congrArg₂ Ticket.mk at_t generation
    subst is_ticket
    exact ⟨call, ⟨mem, u, claim, is_key ▸ holds⟩, is_key, claim⟩
  · rintro ⟨call, current, rfl, claim⟩
    exact waits_of_holds positive (current.holds claim)

theorem singleflight (sound : σ.Sound) (unwrapped : σ.Unwrapped) : σ.Singleflight ε where
  ids := sound.ticketed.ids
  mapped s loading := by
    obtain ⟨call, -, _, -, -, -, mapped⟩ := sound.ticketed.flown s loading
    exact ⟨call.key, mapped⟩
  loaded s loading := by
    obtain ⟨call, current, t, claim, at_s⟩ := sound.current_of_loading loading
    refine ⟨call, ⟨current, t, claim, at_s⟩, ?_⟩
    rintro other ⟨current', u, claim', at_s'⟩
    exact sound.eq_of_slot unwrapped current' current claim' claim (at_s'.trans at_s.symm)
  one_slot _ _ _ _ hl hm claim claim' := sound.eq_of_slot unwrapped hl hm claim claim'
  one_key _ _ hl hm := sound.eq_of_key unwrapped hl hm
  waits _ _ _ positive := sound.waits_iff positive
  runs key ttl call positive runs other current same := by
    obtain ⟨-, t, claim, -⟩ := id current
    rw [(sound.waits_iff positive).2 ⟨other, current, same, claim⟩] at runs
    cases runs
  idle := sound.not_loading
  landed unclaimed key s mapped := by
    cases content : (σ.cache.cell s).content with
    | vacant => exact absurd content (Cache.Coherent.content_of_mapped sound.steady mapped)
    | loading => exact absurd content (sound.not_loading unclaimed s)
    | stored value expiry => exact ⟨value, expiry, rfl⟩

end Sound

end Current

/-- Gets share the loads of their keys, whatever else goes on beside them, as long as no load
outlives all the generations of its slot. -/
theorem singleflight_run (n : Nat) (as : List (Action ε α))
    (unwrapped : ∀ older, older <+: as → ((ofCapacity n).run older).Unwrapped) :
    ((ofCapacity n).run as).Singleflight ε ∧ (ofCapacity n).Exclusive as := by
  have sound := fun as : List (Action ε α) => (sound_ofCapacity (α := α) n).run as
  refine ⟨(sound as).singleflight (unwrapped as List.prefix_rfl), ?_⟩
  rintro older key ttl call t between ttl' newer rfl runs claim still kept positive
  rw [List.append_cons, run_append] at still ⊢
  have claimed := unwrapped (older ++ [.enter key ttl])
    ⟨between ++ .enter key ttl' :: newer, by simp⟩
  have sound' := sound (older ++ [.enter key ttl])
  obtain ⟨rfl, -, mem, holds⟩ := holds_of_claim (sound older) runs claim
  rw [run_append] at claimed sound' still kept ⊢
  have holding := sound'.ticketed.holding (claimed.slot _) mem claim holds
  exact waits_of_holds positive (holding.run sound' still kept).holds

def twoGets : List (Action String Nat) := [.enter "a" ⟨5⟩, .peek "a", .enter "a" ⟨3⟩]

theorem get_beside_load_waits :
    (∀ older, older <+: twoGets → ((ofCapacity 1 : Service Nat).run older).Unwrapped) ∧
    ((ofCapacity 1 : Service Nat).run (twoGets.take 2)).reply (.enter "a" ⟨3⟩ : Action String Nat) =
      .waits ⟨⟨0⟩, 1⟩ := by
  have unwrapped (older : List (Action String Nat)) (h : older <+: twoGets) :
      ((ofCapacity 1 : Service Nat).run older).Unwrapped := by
    rw [← List.mem_inits] at h
    revert older
    decide
  refine ⟨unwrapped, ?_⟩
  apply (singleflight_run 1 twoGets unwrapped).2 [] "a" ⟨5⟩ ⟨0, "a", ⟨5⟩, some ⟨⟨0⟩, 1⟩, 1⟩
    ⟨⟨0⟩, 1⟩ [.peek "a"] ⟨3⟩ [] rfl rfl rfl (by decide) _ rfl
  simp [Displaces, Deletes, Evicts]

end Service

end Arbiter
