import Arbiter.Proofs.Cache.Agreement
import Arbiter.Proofs.Cache.Provenance
import Arbiter.Proofs.Cache.Service.Promotion

namespace Arbiter

universe u v

variable {α : Type u} {ε : Type v}

namespace Expiry

variable {now later : Instant} {expiry : Expiry}

theorem isFresh_mono (h : expiry.isFresh later = true) (le : now.nanos ≤ later.nanos) :
    expiry.isFresh now = true := by
  cases expiry with
  | never => rfl
  | due deadline =>
    simp only [isFresh, decide_eq_true_eq, Instant.lt_def] at h ⊢
    exact Nat.lt_of_le_of_lt le h

theorem after_eq_never_iff {ttl : Duration} :
    after now ttl = .never ↔ Instant.limit ≤ now.nanos + ttl.nanos := by
  rw [← Instant.add?_eq_none_iff, after]
  cases now.add? ttl <;> simp

end Expiry

def Cache.expiry? (c : Cache α) (key : String) : Option Expiry :=
  c.table[key]?.bind fun s => (c.cell s).content.expiry?

namespace Service

section Clock

variable {σ : Service α}

theorem now_advance (σ : Service α) (span : Duration) :
    (σ.step (.advance span : Action ε α)).now.nanos =
      if σ.now.nanos + span.nanos < Instant.limit then σ.now.nanos + span.nanos
      else σ.now.nanos := by
  rw [step, act]
  cases moved : σ.now.add? span with
  | some later =>
    have same := Instant.add?_eq_some_iff.1 moved
    rw [if_pos (same ▸ later.nanos_lt)]
    exact same
  | none => rw [if_neg (Nat.not_lt_of_le (Instant.add?_eq_none_iff.1 moved))]

theorem now_le_step (σ : Service α) (a : Action ε α) : σ.now.nanos ≤ (σ.step a).now.nanos := by
  cases a with
  | enter key ttl =>
    rw [step, act]
    generalize σ.cache.enter σ.now key ttl = entered
    obtain ⟨c, admission⟩ := entered
    cases admission <;> exact Nat.le_refl _
  | settle id outcome =>
    rw [step, act]
    cases σ.running.find? (·.id == id) <;> exact Nat.le_refl _
  | delete key => exact Nat.le_refl _
  | peek key => exact Nat.le_refl _
  | advance span =>
    rw [now_advance]
    split
    · exact Nat.le_add_right _ _
    · exact Nat.le_refl _

variable (ε) in
theorem never_reached_iff (σ : Service α) {time : Nat} :
    Instant.limit ≤ time ↔ ∀ as : List (Action ε α), (σ.run as).now.nanos < time := by
  constructor
  · exact fun beyond as => Nat.lt_of_lt_of_le (σ.run as).now.nanos_lt beyond
  · intro unreached
    by_contra within
    have early : σ.now.nanos < time := unreached []
    have late := unreached [.advance ⟨time - σ.now.nanos⟩]
    have sum : σ.now.nanos + (time - σ.now.nanos) = time := by omega
    rw [run_cons, run_nil, now_advance, sum, if_pos (Nat.lt_of_not_le within)] at late
    exact Nat.lt_irrefl time late

end Clock

section Entry

variable {σ : Service α} {a : Action ε α} {key : String} {s : Slot} {value : α} {expiry : Expiry}

theorem stored_step (steady : σ.cache.Steady) (mapped : σ.cache.table[key]? = some s)
    (stored : (σ.cache.cell s).content = .stored value expiry) (kept : ¬ Undoes key σ a) :
    (σ.step a).cache.table[key]? = some s ∧
      ((σ.step a).cache.cell s).content = .stored value expiry := by
  have idle {call : Call} {t : Ticket} (holds : σ.cache.holds call.key t = true) :
      s ≠ t.slot := by
    rintro rfl
    cases stored.symm.trans (Cache.holds_iff.1 holds).2.1
  have stepped := (stepped steady a).2
  generalize after : σ.step a = σ' at stepped ⊢
  generalize replied : σ.reply a = r at stepped
  cases stepped with
  | read _ _ _ _ table cell | bypass _ _ _ _ table cell =>
    rw [table, cell]
    exact ⟨mapped, stored⟩
  | claim other ttl t lag call is claimed =>
    have ne : key ≠ other := by
      rintro rfl
      refine kept (.inr (.inr ⟨ttl, call, rfl, replied, ?_⟩))
      rw [is]
      exact Option.some_ne_none _
    -- A claim for another key takes this slot only by evicting what is in it.
    have apart : s ≠ t := by
      rintro rfl
      refine kept (.inr (.inl ⟨s, ⟨other, ttl, rfl⟩, mapped, ?_⟩))
      rw [after, Option.eq_none_iff_forall_ne_some]
      intro u mapped'
      obtain ⟨owned, moved⟩ := (claimed.others key ne u).1 mapped'
      exact moved (Option.some.inj (owned.symm.trans mapped))
    rw [claimed.others key ne, claimed.cell, Function.update_of_ne apart]
    exact ⟨⟨mapped, apart⟩, stored⟩
  | store _ _ _ _ _ holds table cell =>
    rw [table, cell, Function.update_of_ne (idle holds)]
    exact ⟨mapped, stored⟩
  | drop _ _ _ _ _ holds table cell =>
    rw [table, cell, Function.update_of_ne (idle holds)]
    exact ⟨Cache.getElem?_erase_of_slot_ne (Cache.holds_iff.1 holds).1 mapped (idle holds), stored⟩
  | discard _ _ _ _ same =>
    rw [same]
    exact ⟨mapped, stored⟩
  | delete other t owned table cell =>
    have ne : key ≠ other := by
      rintro rfl
      exact kept (.inl ⟨rfl, replied⟩)
    have apart : s ≠ t := by
      rintro rfl
      exact ne (Cache.Coherent.table_injective steady mapped owned)
    rw [table, cell, Function.update_of_ne apart, Cache.getElem?_erase_of_ne ne]
    exact ⟨mapped, stored⟩

theorem stored_run (sound : σ.Sound) (mapped : σ.cache.table[key]? = some s)
    (stored : (σ.cache.cell s).content = .stored value expiry) {as : List (Action ε α)}
    (kept : ¬ Occurs (Undoes key) σ as) : (σ.run as).cache.table[key]? = some s ∧
      ((σ.run as).cache.cell s).content = .stored value expiry := by
  induction as generalizing σ with
  | nil => exact ⟨mapped, stored⟩
  | cons a as ih =>
    rw [occurs_cons, not_or] at kept
    obtain ⟨mapped', stored'⟩ := stored_step sound.steady mapped stored kept.1
    exact ih (sound.step a) mapped' stored' kept.2

theorem stored_of_settle (sound : σ.Sound) {call : Call} (current : σ.Current call) (value : α) :
    ∃ s, (σ.step (.settle call.id (.ok value) : Action ε α)).cache.table[call.key]? = some s ∧
      ((σ.step (.settle call.id (.ok value) : Action ε α)).cache.cell s).content =
        .stored value (.after σ.now call.ttl) := by
  obtain ⟨mem, t, claim, holds⟩ := current
  have settled := settled_of_holds sound mem claim holds (.ok value : Except (LoadError ε) α)
  refine ⟨t.slot, ?_, ?_⟩
  · rw [settled.table]
    exact (Cache.holds_iff.1 holds).1
  · rw [settled.cell, Function.update_self]
    rfl

end Entry

section Expired

variable {σ : Service α} {a : Action ε α} {key : String}

theorem peek_eq_none_step (steady : σ.cache.Steady) (hidden : σ.cache.peek σ.now key = none)
    (kept : ¬ Stores key σ a) : (σ.step a).cache.peek (σ.step a).now key = none := by
  by_contra shown
  obtain ⟨value, found⟩ := Option.ne_none_iff_exists'.1 shown
  obtain ⟨s, expiry, mapped, stored, fresh⟩ :=
    stored_of_found (ε := ε) (congrArg Reply.found found)
  rcases (stepped steady a).2.stored steady mapped stored with
    ⟨mapped', stored'⟩ | ⟨call, rfl, current, is, -⟩
  · have fresh' := Expiry.isFresh_mono fresh (now_le_step σ a)
    rw [Cache.peek_stored mapped' stored', if_pos fresh'] at hidden
    cases hidden
  · exact kept ⟨call, value, rfl, current, is⟩

theorem peek_eq_none_run (sound : σ.Sound) (hidden : σ.cache.peek σ.now key = none)
    {as : List (Action ε α)} (kept : ¬ Occurs (Stores key) σ as) :
    (σ.run as).cache.peek (σ.run as).now key = none := by
  induction as generalizing σ with
  | nil => exact hidden
  | cons a as ih =>
    rw [occurs_cons, not_or] at kept
    exact ih (sound.step a) (peek_eq_none_step sound.steady hidden kept.1) kept.2

end Expired

variable (ε) in
/-- `value` is cached for `key` until `deadline`, and what clocks there may be cannot tell the
deadline from the number it is. -/
structure Lasts (σ : Service α) (key : String) (value : α) (deadline : Nat) : Prop where
  peek : ∀ t : Instant,
    σ.cache.peek t key = if t.nanos < deadline then some value else none
  found : σ.reply (.peek key : Action ε α) = .found (some value) ↔ σ.now.nanos < deadline
  never : σ.cache.expiry? key = some .never ↔ Instant.limit ≤ deadline
  outlives : σ.cache.expiry? key = some .never ↔
    ∀ as : List (Action ε α), (σ.run as).now.nanos < deadline
  expired : deadline ≤ σ.now.nanos → ∀ as : List (Action ε α), ¬ Occurs (Stores key) σ as →
    (σ.run as).reply (.peek key : Action ε α) = .found none

theorem lasts_of_stored {σ : Service α} {key : String} {s : Slot} {value : α} {stored : Instant}
    {ttl : Duration} (sound : σ.Sound) (mapped : σ.cache.table[key]? = some s)
    (content : (σ.cache.cell s).content = .stored value (.after stored ttl)) :
    σ.Lasts ε key value (stored.nanos + ttl.nanos) := by
  have peek (t : Instant) : σ.cache.peek t key =
      if t.nanos < stored.nanos + ttl.nanos then some value else none := by
    rw [Cache.peek_stored mapped content]
    simp only [Expiry.isFresh_after]
  have marked : σ.cache.expiry? key = some (.after stored ttl) := by
    rw [Cache.expiry?, mapped, Option.bind_some, content]
    rfl
  have never : σ.cache.expiry? key = some .never ↔
      Instant.limit ≤ stored.nanos + ttl.nanos := by
    rw [marked, Option.some.injEq, Expiry.after_eq_never_iff]
  refine ⟨peek, ?_, never, never.trans (never_reached_iff ε σ), ?_⟩
  · show Reply.found (σ.cache.peek σ.now key) = .found (some value) ↔ _
    rw [peek, Reply.found.injEq]
    simp
  · intro past as kept
    refine congrArg Reply.found (peek_eq_none_run sound ?_ kept)
    rw [peek, if_neg (Nat.not_lt_of_le past)]

/-- A value stored for a key is shown, at every later reading of the clock until the key is deleted,
evicted or claimed again, exactly while the reading is below the time of the store and the time to
live added up, also where the sum is more than a clock can show. -/
theorem freshness_run (n : Nat) (older newer : List (Action ε α)) (call : Call) (value : α)
    (σ τ : Service α) (before : σ = (ofCapacity n).run older) (current : σ.Current call)
    (after : τ = (σ.step (.settle call.id (.ok value) : Action ε α)).run newer)
    (kept : ¬ Occurs (Undoes call.key) (σ.step (.settle call.id (.ok value) : Action ε α)) newer) :
    τ.Lasts ε call.key value (σ.now.nanos + call.ttl.nanos) := by
  have sound : σ.Sound := before ▸ (sound_ofCapacity n).run older
  obtain ⟨s, mapped, stored⟩ := stored_of_settle (ε := ε) sound current value
  have ended := sound.step (.settle call.id (.ok value) : Action ε α)
  obtain ⟨mapped', stored'⟩ := stored_run ended mapped stored kept
  subst after
  exact lasts_of_stored (ended.run newer) mapped' stored'

def loadingA (ttl : Duration) : Service Nat :=
  (ofCapacity 1).run ([.advance ⟨1999999999⟩, .enter "a" ttl] : List (Action String Nat))

def callA (ttl : Duration) : Call := ⟨0, "a", ttl, some ⟨⟨0⟩, 1⟩, 1⟩

def hitAndWait : List (Action String Nat) := [.enter "a" ⟨3⟩, .advance ⟨8000000000⟩]

def waitingA (ttl : Duration) : Service Nat :=
  ((loadingA ttl).step (.settle 0 (.ok 7) : Action String Nat)).run hitAndWait

theorem shown_before_ten_seconds :
    (loadingA ⟨8000000001⟩).Current (callA ⟨8000000001⟩) ∧
    ¬ Occurs (Undoes "a") ((loadingA ⟨8000000001⟩).step (.settle 0 (.ok 7) : Action String Nat))
      hitAndWait ∧
    (waitingA ⟨8000000001⟩).now.nanos = 9999999999 ∧
    (waitingA ⟨8000000001⟩).Lasts String "a" 7 10000000000 := by
  have current : (loadingA ⟨8000000001⟩).Current (callA ⟨8000000001⟩) :=
    ⟨by decide, _, rfl, by decide⟩
  let stored := (loadingA ⟨8000000001⟩).step (.settle 0 (.ok 7) : Action String Nat)
  have kept : ¬ Occurs (Undoes "a") stored hitAndWait := by
    have hit : stored.reply (.enter "a" ⟨3⟩ : Action String Nat) = .served ⟨.ok 7, false⟩ := rfl
    have mapped : "a" ∈ (stored.step (.enter "a" ⟨3⟩ : Action String Nat)).cache.table := by decide
    simp [hitAndWait, Undoes, Deletes, Evicts, Claims, hit, mapped]
  exact ⟨current, kept, rfl, freshness_run 1
    [.advance ⟨1999999999⟩, .enter "a" ⟨8000000001⟩] hitAndWait (callA ⟨8000000001⟩) 7
    (loadingA ⟨8000000001⟩) (waitingA ⟨8000000001⟩) rfl current rfl kept⟩

example : (waitingA ⟨Instant.limit - 1999999999⟩).cache.expiry? "a" = some .never := by decide

end Service

end Arbiter
