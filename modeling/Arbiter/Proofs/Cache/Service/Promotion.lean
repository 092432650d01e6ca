import Arbiter.Proofs.Cache.Displacement
import Arbiter.Proofs.Cache.Recency
import Arbiter.Proofs.Cache.Singleflight

namespace Arbiter

universe u v

variable {α : Type u} {ε : Type v}

namespace Service

def subject? (σ : Service α) : Action ε α → Option String
  | .enter key _ | .delete key | .peek key => some key
  | .settle id _ => (σ.running.find? (·.id == id)).map Call.key
  | .advance _ => none

def Hits (key : String) (σ : Service α) (a : Action ε α) : Prop :=
  ∃ ttl value, a = .enter key ttl ∧ σ.reply a = .served ⟨.ok value, false⟩

def Stores (key : String) (σ : Service α) (a : Action ε α) : Prop :=
  ∃ call value, a = .settle call.id (.ok value) ∧ σ.Current call ∧ call.key = key

def Fails (key : String) (σ : Service α) (a : Action ε α) : Prop :=
  ∃ call error, a = .settle call.id (.error error) ∧ σ.Current call ∧ call.key = key

inductive Promotes (key : String) (σ : Service α) (a : Action ε α) : Prop
  | claim (claims : Claims key σ a)
  | hit (hits : Hits key σ a)
  | store (stores : Stores key σ a)

/-- A get of `key` claims a slot for it, but it has none and no slot is free. -/
structure Presses (key : String) (σ : Service α) (a : Action ε α) : Prop where
  claims : Claims key σ a
  unmapped : σ.cache.table[key]? = none
  full : σ.cache.links.freeStack = []

inductive Ranked (σ : Service α) (a : Action ε α) : Prop
  | promote (key : String) (promotes : Promotes key σ a) (roomy : ¬ Presses key σ a)
      (keys : (σ.step a).cache.keys = key :: σ.cache.keys.erase key)
  | evict (key old : String) (presses : Presses key σ a) (victim : σ.cache.Victim old)
      (keys : (σ.step a).cache.keys = key :: σ.cache.keys.erase old)
  | drop (key : String) (drops : Deletes key σ a ∨ Fails key σ a)
      (quiet : ∀ j, ¬ Promotes j σ a) (keys : (σ.step a).cache.keys = σ.cache.keys.erase key)
  | keep (quiet : ∀ j, ¬ Promotes j σ a) (keys : (σ.step a).cache.keys = σ.cache.keys)

variable {σ : Service α} {a : Action ε α} {key : String} {ttl : Duration}

section Subject

theorem subject?_settle (ticketed : σ.Ticketed) {call : Call} (mem : call ∈ σ.running)
    (outcome : Except (LoadError ε) α) : σ.subject? (.settle call.id outcome) = some call.key := by
  rw [subject?, ticketed.find?_eq mem, Option.map_some]

theorem Promotes.subject? (h : Promotes key σ a) (ticketed : σ.Ticketed) :
    σ.subject? a = some key := by
  cases h with
  | claim claims =>
    obtain ⟨_, _, rfl, -⟩ := claims
    rfl
  | hit hits =>
    obtain ⟨_, _, rfl, -⟩ := hits
    rfl
  | store stores =>
    obtain ⟨_, _, rfl, current, rfl⟩ := stores
    exact subject?_settle ticketed current.1 _

theorem Promotes.unique {j : String} (h : Promotes key σ a) (h' : Promotes j σ a)
    (ticketed : σ.Ticketed) : j = key :=
  Option.some.inj ((h'.subject? ticketed).symm.trans (h.subject? ticketed))

theorem subject?_of_drops (ticketed : σ.Ticketed) (h : Deletes key σ a ∨ Fails key σ a) :
    σ.subject? a = some key := by
  rcases h with ⟨rfl, -⟩ | ⟨_, _, rfl, current, rfl⟩
  · rfl
  · exact subject?_settle ticketed current.1 _

theorem not_promotes_of_enter {j : String}
    (idle : (∃ load, σ.reply (.enter key ttl : Action ε α) = .waits load) ∨
      ∃ call, σ.reply (.enter key ttl : Action ε α) = .runs call ∧ call.claim = none) :
    ¬ Promotes j σ (.enter key ttl : Action ε α) := by
  rintro (⟨_, call, -, runs, claim⟩ | ⟨_, value, -, served⟩ | ⟨_, _, no, -⟩)
  · rw [runs] at idle
    rcases idle with ⟨_, no⟩ | ⟨_, ⟨⟩, unclaimed⟩
    · cases no
    · exact claim unclaimed
  · rw [served] at idle
    rcases idle with ⟨_, no⟩ | ⟨_, no, -⟩ <;> cases no
  · cases no

theorem not_promotes_of_ne {j : String} (enter : ∀ key ttl, a ≠ .enter key ttl)
    (settle : ∀ id outcome, a ≠ .settle id outcome) : ¬ Promotes j σ a := by
  rintro (⟨ttl, _, is, -⟩ | ⟨ttl, _, is, -⟩ | ⟨_, _, is, -⟩)
  · exact enter _ _ is
  · exact enter _ _ is
  · exact settle _ _ is

theorem not_promotes_of_settle {id : Nat} {outcome : Except (LoadError ε) α} {j : String}
    (idle : ∀ call ∈ σ.running, call.id = id → ¬ σ.Current call) :
    ¬ Promotes j σ (.settle id outcome) := by
  rintro (⟨_, _, is, -⟩ | ⟨_, _, is, -⟩ | ⟨call, _, is, current, -⟩)
  · cases is
  · cases is
  · cases is
    exact idle call current.1 rfl current

theorem not_promotes_of_failure {id : Nat} {error : LoadError ε} {j : String} :
    ¬ Promotes j σ (.settle id (.error error) : Action ε α) := by
  rintro (⟨_, _, is, -⟩ | ⟨_, _, is, -⟩ | ⟨_, _, is, -⟩)
  · cases is
  · cases is
  · cases (Action.settle.inj is).2

end Subject

section Ranked

theorem keys_enter {c : Cache α} {l : Lookup α} (positive : ttl.isZero = false)
    (e : σ.cache.lookup σ.now key = (c, l)) :
    (σ.step (.enter key ttl : Action ε α)).cache.keys = c.keys := by
  rw [step, act, σ.cache.enter_lookup σ.now key positive, e]
  cases l <;> rfl

theorem claims_of_lookup {c : Cache α} {t : Ticket} (positive : ttl.isZero = false)
    (e : σ.cache.lookup σ.now key = (c, .claimed t)) :
    Claims key σ (.enter key ttl : Action ε α) := by
  have runs : σ.reply (.enter key ttl : Action ε α) =
      .runs ((σ.put c).call key ttl (some t)) := by
    rw [reply, act, σ.cache.enter_lookup σ.now key positive, e]
    rfl
  exact ⟨ttl, _, rfl, runs, Option.some_ne_none t⟩

theorem ranked_lookup (h : σ.cache.Steady) (key : String) (positive : ttl.isZero = false) :
    σ.Ranked (.enter key ttl : Action ε α) := by
  obtain ⟨steady, looked⟩ := h.lookup σ.now key
  cases e : σ.cache.lookup σ.now key with
  | mk c l =>
  have reply : σ.reply (.enter key ttl : Action ε α) =
      (σ.respond key ttl (Cache.admitted (c, l))).2 := by
    rw [reply, act, σ.cache.enter_lookup σ.now key positive, e]
  have keys := keys_enter (ε := ε) positive e
  rw [e] at steady looked
  dsimp only at steady looked
  cases looked with
  | inFlight s mapped loading same =>
    refine .keep (fun j => not_promotes_of_enter (.inl ⟨_, reply⟩)) ?_
    rw [keys, same]
  | hit s value expiry mapped stored fresh shows =>
    refine .promote key (.hit ⟨ttl, value, rfl, reply⟩) ?_ ?_
    · intro presses
      cases mapped.symm.trans presses.unmapped
    · rw [keys, shows.keys_touch h steady mapped]
  | reload s value expiry mapped stored stale shows =>
    refine .promote key (.claim (claims_of_lookup positive e)) ?_ ?_
    · intro presses
      cases mapped.symm.trans presses.unmapped
    · rw [keys, shows.keys_touch h steady mapped]
  | fill s free unmapped top shows =>
    have fresh : s ∈ σ.cache.links.freeStack := top ▸ List.mem_cons_self
    have claimed := h.claimed_fill unmapped fresh shows
    have out : s ∉ σ.cache.links.recency := fun linked => h.threads.disjoint linked fresh
    refine .promote key (.claim (claims_of_lookup positive e)) ?_ ?_
    · intro presses
      cases top.symm.trans presses.full
    · rw [keys, claimed.keys h steady shows.recency out,
        List.erase_of_not_mem (h.not_mem_keys unmapped)]
      rfl
  | evict s old unmapped full victim owned shows =>
    have claimed := h.claimed_evict unmapped owned shows
    have out : s ∉ σ.cache.links.recency.erase s := h.threads.nodup_linked.not_mem_erase
    refine .evict key old ⟨claims_of_lookup positive e, unmapped, full⟩ (h.victim victim owned) ?_
    rw [keys, claimed.keys h steady shows.recency out, h.keys_erase owned]
  | unavailable empty same =>
    refine .keep (fun j => not_promotes_of_enter (.inr ⟨_, reply, rfl⟩)) ?_
    rw [keys, same]
    rfl

theorem ranked_enter (h : σ.cache.Steady) (key : String) (ttl : Duration) :
    σ.Ranked (.enter key ttl : Action ε α) := by
  cases zero : ttl.isZero with
  | false => exact ranked_lookup h key zero
  | true =>
    have e := σ.cache.enter_bypass σ.now key zero
    have runs : σ.reply (.enter key ttl : Action ε α) =
        .runs ((σ.put (σ.cache.record .bypass)).call key ttl none) := by
      rw [reply, act, e]
      rfl
    refine .keep (fun j => not_promotes_of_enter (.inr ⟨_, runs, rfl⟩)) ?_
    rw [step, act, e]
    rfl

theorem ranked_settle (sound : σ.Sound) (id : Nat) (outcome : Except (LoadError ε) α) :
    σ.Ranked (.settle id outcome) := by
  cases found : σ.running.find? (·.id == id) with
  | none =>
    refine .keep (fun j => not_promotes_of_settle fun call mem is => ?_) ?_
    · have other := List.find?_eq_none.1 found call mem
      simp [is] at other
    · rw [step, act, found]
  | some call =>
    have mem := List.mem_of_find?_eq_some found
    have same : call.id = id := by simpa using List.find?_some found
    subst same
    have quiet (lost : ¬ σ.Current call) (j : String) : ¬ Promotes j σ (.settle call.id outcome) :=
      not_promotes_of_settle fun other mem' is =>
        sound.ticketed.eq_of_id mem' mem is ▸ lost
    cases claim : call.claim with
    | none =>
      refine .keep (quiet ?_) ?_
      · rintro ⟨-, t, claim', -⟩
        cases claim.symm.trans claim'
      · rw [kept_of_unclaimed sound mem claim]
        rfl
    | some t =>
      rcases settled_or_kept sound mem claim outcome with ⟨holds, settled⟩ | ⟨lost, kept⟩
      · have current : σ.Current call := ⟨mem, t, claim, holds⟩
        have mapped := (Cache.holds_iff.1 holds).1
        have steady := (stepped sound.steady (.settle call.id outcome)).1
        cases outcome with
        | ok value =>
          refine .promote call.key (.store ⟨call, value, rfl, current, rfl⟩) ?_ ?_
          · intro presses
            cases mapped.symm.trans presses.unmapped
          · exact Cache.Shows.keys_touch sound.steady steady mapped settled
        | error error =>
          refine .drop call.key (.inr ⟨call, error, rfl, current, rfl⟩) ?_ ?_
          · exact fun j => not_promotes_of_failure
          · exact Cache.Shows.keys_drop sound.steady steady mapped settled
      · refine .keep (quiet ?_) ?_
        · intro current
          rw [current.holds claim] at lost
          cases lost
        · rw [kept]
          rfl

theorem ranked_delete (h : σ.cache.Steady) (key : String) :
    σ.Ranked (.delete key : Action ε α) := by
  obtain ⟨steady, deleted⟩ := h.delete key
  have quiet (j : String) : ¬ Promotes j σ (.delete key : Action ε α) :=
    not_promotes_of_ne (fun _ _ => nofun) fun _ _ => nofun
  cases e : σ.cache.delete key with
  | mk c mapped =>
  rw [e] at steady deleted
  dsimp only at steady deleted
  have keys : (σ.step (.delete key : Action ε α)).cache.keys = c.keys := by
    rw [step, act, e]
    rfl
  cases deleted with
  | dropped s mapped shows =>
    refine .drop key (.inl ⟨rfl, ?_⟩) quiet ?_
    · rw [reply, act, e]
    · rw [keys, shows.keys_drop h steady mapped]
  | absent unmapped same =>
    refine .keep quiet ?_
    rw [keys, same]

theorem ranked (sound : σ.Sound) (a : Action ε α) : σ.Ranked a := by
  cases a with
  | enter key ttl => exact ranked_enter sound.steady key ttl
  | settle id outcome => exact ranked_settle sound id outcome
  | delete key => exact ranked_delete sound.steady key
  | peek key => exact .keep (fun j => not_promotes_of_ne (fun _ _ => nofun) fun _ _ => nofun) rfl
  | advance span =>
    refine .keep (fun j => not_promotes_of_ne (fun _ _ => nofun) fun _ _ => nofun) ?_
    rw [step, act]
    cases σ.now.add? span <;> rfl

end Ranked

end Service

end Arbiter
