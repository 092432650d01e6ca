import Arbiter.Proofs.Cache.Isolation
import Mathlib.Data.Finset.Card

namespace Arbiter

universe u v

variable {α : Type u} {ε : Type v}

namespace Service

/-- `j` has been promoted in the course of the run, and `key` has not been since. -/
def Ahead (σ : Service α) (as : List (Action ε α)) (j key : String) : Prop :=
  ∃ older p newer, as = older ++ p :: newer ∧ Promotes j (σ.run older) p ∧
    ¬ Occurs (Promotes key) (σ.run (older ++ [p])) newer

structure Ordered (σ : Service α) (as : List (Action ε α)) : Prop where
  used : ∀ key ∈ (σ.run as).cache.keys, σ.Ahead as key key
  sorted : (σ.run as).cache.keys.Pairwise (σ.Ahead as)

/-- `j` is another key than `key`, and is promoted from `σ` on, at the latest by `a`, or is in
flight when `a` comes. -/
def Crowds (key : String) (σ : Service α) (during : List (Action ε α)) (a : Action ε α)
    (j : String) : Prop :=
  j ≠ key ∧ (Occurs (Promotes j) σ (during ++ [a]) ∨
    ∃ call, (σ.run during).Current call ∧ call.key = j)

def Crowded (n : Nat) (key : String) (σ : Service α) (during : List (Action ε α))
    (a : Action ε α) : Prop :=
  ∃ others : Finset String, n ≤ others.card ∧ ∀ j ∈ others, Crowds key σ during a j

variable {σ : Service α} {as older newer : List (Action ε α)} {a p : Action ε α}
  {key j : String} {n : Nat}

section Ordered

theorem Ahead.snoc (h : σ.Ahead as j key) (quiet : ¬ Promotes key (σ.run as) a) :
    σ.Ahead (as ++ [a]) j key := by
  obtain ⟨older, p, newer, rfl, promotes, since⟩ := h
  refine ⟨older, p, newer ++ [a], by simp, promotes, ?_⟩
  rw [List.append_cons, run_append] at quiet
  rw [occurs_append, not_or]
  exact ⟨since, by simpa using quiet⟩

theorem ahead_last (promotes : Promotes j (σ.run as) a) : σ.Ahead (as ++ [a]) j key :=
  ⟨as, a, [], rfl, promotes, occurs_nil⟩

theorem Ordered.quiet (h : σ.Ordered as) (quiet : ∀ j, ¬ Promotes j (σ.run as) a)
    (fewer : (σ.run (as ++ [a])).cache.keys.Sublist (σ.run as).cache.keys) :
    σ.Ordered (as ++ [a]) where
  used key mem := (h.used key (fewer.subset mem)).snoc (quiet key)
  sorted := (h.sorted.sublist fewer).imp fun ahead => ahead.snoc (quiet _)

theorem Ordered.promote (h : σ.Ordered as) (ticketed : (σ.run as).Ticketed)
    (promotes : Promotes key (σ.run as) a) {rest : List String}
    (keys : (σ.run (as ++ [a])).cache.keys = key :: rest) (out : key ∉ rest)
    (fewer : rest.Sublist (σ.run as).cache.keys) : σ.Ordered (as ++ [a]) := by
  have others {j : String} (mem : j ∈ rest) : ¬ Promotes j (σ.run as) a := by
    intro promotes'
    exact ne_of_mem_of_not_mem mem out (promotes.unique promotes' ticketed)
  constructor
  · rw [keys, List.forall_mem_cons]
    exact ⟨ahead_last promotes, fun j mem => (h.used j (fewer.subset mem)).snoc (others mem)⟩
  · rw [keys, List.pairwise_cons]
    refine ⟨fun j _ => ahead_last promotes, (h.sorted.sublist fewer).imp_of_mem ?_⟩
    exact fun _ mem ahead => ahead.snoc (others mem)

theorem keys_ofCapacity (n : Nat) : (Cache.ofCapacity n : Cache α).keys = [] := by
  rw [(Cache.coherent_ofCapacity n).keys_eq]
  rfl

theorem ordered_run (n : Nat) (as : List (Action ε α)) : (ofCapacity n : Service α).Ordered as := by
  induction as using List.reverseRecOn with
  | nil =>
    have none : ((ofCapacity n : Service α).run ([] : List (Action ε α))).cache.keys = [] :=
      keys_ofCapacity n
    refine ⟨?_, ?_⟩
    · rw [none]
      exact nofun
    · rw [none]
      exact .nil
  | append_singleton as a ih =>
    have sound := (sound_ofCapacity (α := α) n).run as
    have nodup := Cache.Coherent.keys_nodup sound.steady
    have after : (ofCapacity n : Service α).run (as ++ [a]) =
        ((ofCapacity n : Service α).run as).step a := run_append ..
    cases ranked sound a with
    | promote key promotes _ keys =>
      exact ih.promote sound.ticketed promotes (after ▸ keys) nodup.not_mem_erase List.erase_sublist
    | evict key old presses _ keys =>
      have out : key ∉ ((ofCapacity n : Service α).run as).cache.keys.erase old :=
        mt List.mem_of_mem_erase (sound.steady.not_mem_keys presses.unmapped)
      exact ih.promote sound.ticketed (.claim presses.claims) (after ▸ keys) out List.erase_sublist
    | drop key _ quiet keys => exact ih.quiet quiet (after ▸ keys ▸ List.erase_sublist)
    | keep quiet keys => exact ih.quiet quiet (after ▸ keys ▸ List.Sublist.refl _)

end Ordered

section Crowded

theorem Ahead.occurs (h : σ.Ahead (older ++ p :: newer) j key)
    (promotes : Promotes key (σ.run older) p) :
    Occurs (Promotes j) (σ.run older) (p :: newer) := by
  obtain ⟨older', p', newer', split, promotes', since⟩ := h
  rcases List.append_eq_append_iff.1 split with ⟨between, rfl, rest⟩ | ⟨between, rfl, rest⟩
  · rw [rest, occurs_append, ← run_append]
    exact .inr (.inl promotes')
  · rcases List.cons_eq_append_iff.1 rest with ⟨rfl, rest⟩ | ⟨between, rfl, rfl⟩
    · cases rest
      rw [List.append_nil]
      exact .inl promotes'
    · -- The promotion of `key` came after that of `j`.
      refine absurd ?_ since
      rw [List.append_cons, run_append] at promotes
      exact occurs_append.2 (.inr (.inl promotes))

theorem current_of_loading (sound : σ.Sound) (loading : σ.cache.Loading j) :
    ∃ call, σ.Current call ∧ call.key = j := by
  obtain ⟨s, mapped, loading⟩ := loading
  obtain ⟨call, current, t, claim, rfl⟩ := sound.current_of_loading loading
  have mapped' := (Cache.holds_iff.1 (current.holds claim)).1
  exact ⟨call, current, Cache.Coherent.table_injective sound.steady mapped' mapped⟩

theorem length_keys_of_full
    (full : ((ofCapacity n : Service α).run as).cache.links.freeStack = []) :
    ((ofCapacity n : Service α).run as).cache.keys.length = n := by
  have steady := steady_run (steady_ofCapacity n) as
  have slots := Cache.Coherent.count_slots steady
  rw [full, List.length_nil, Nat.add_zero, capacity_run_ofCapacity] at slots
  rw [Cache.Coherent.length_keys steady, slots]

theorem crowds_of_victim (victim : ((ofCapacity n).run (older ++ p :: newer)).cache.Victim key)
    (promotes : Promotes key ((ofCapacity n : Service α).run older) p)
    (mem : j ∈ ((ofCapacity n).run (older ++ p :: newer)).cache.keys) (ne : j ≠ key) :
    Crowds key ((ofCapacity n).run older) (p :: newer) a j := by
  have sorted := (ordered_run (α := α) n (older ++ p :: newer)).sorted
  have flying (loading : ((ofCapacity n).run (older ++ p :: newer)).cache.Loading j) :
      ∃ call, (((ofCapacity n).run older).run (p :: newer)).Current call ∧ call.key = j := by
    rw [← run_append]
    exact current_of_loading ((sound_ofCapacity n).run _) loading
  refine ⟨ne, ?_⟩
  cases victim with
  | idle newer' older' keys _ busy =>
    rw [keys, List.pairwise_append] at sorted
    rw [keys, List.mem_append, List.mem_cons] at mem
    rcases mem with front | rfl | behind
    · have ahead := sorted.2.2 j front key List.mem_cons_self
      exact .inl (occurs_append.2 (.inl (ahead.occurs promotes)))
    · exact absurd rfl ne
    · exact .inr (flying (busy j behind))
  | busy _ _ busy => exact .inr (flying (busy j mem))

theorem crowded_of_evicts {s : Slot}
    (evicts : Evicts key s ((ofCapacity n : Service α).run (older ++ p :: newer)) a)
    (promotes : Promotes key ((ofCapacity n : Service α).run older) p) :
    Crowded n key ((ofCapacity n : Service α).run older) (p :: newer) a := by
  have sound := (sound_ofCapacity (α := α) n).run (older ++ p :: newer)
  have nodup := Cache.Coherent.keys_nodup sound.steady
  have mem := evicts.mem_keys sound
  obtain ⟨other, presses, victim⟩ := evicts.presses sound
  have out := sound.steady.not_mem_keys presses.unmapped
  have distinct := List.nodup_cons.2 ⟨mt List.mem_of_mem_erase out, nodup.erase key⟩
  refine ⟨_, (List.toFinset_card_of_nodup distinct).ge.trans' ?_, fun j listed => ?_⟩
  · rw [List.length_cons, List.length_erase_add_one mem, length_keys_of_full presses.full]
  · rw [List.mem_toFinset, List.mem_cons, nodup.mem_erase_iff] at listed
    rcases listed with rfl | ⟨ne, listed⟩
    · refine ⟨(ne_of_mem_of_not_mem mem out).symm, .inl (occurs_append.2 (.inr (.inl ?_)))⟩
      rw [← run_append]
      exact .claim presses.claims
    · exact crowds_of_victim victim promotes listed ne

end Crowded

section Kept

theorem mem_keys_of_promotes (sound : σ.Sound) (promotes : Promotes key σ a) :
    key ∈ (σ.step a).cache.keys := by
  cases ranked sound a with
  | promote other promotes' _ keys =>
    rw [keys, promotes.unique promotes' sound.ticketed]
    exact List.mem_cons_self
  | evict other _ presses _ keys =>
    rw [keys, promotes.unique (.claim presses.claims) sound.ticketed]
    exact List.mem_cons_self
  | drop _ _ quiet => exact absurd promotes (quiet key)
  | keep quiet => exact absurd promotes (quiet key)

theorem kept_unless_crowded (promotes : Promotes key ((ofCapacity n : Service α).run older) p)
    (undeleted : ¬ Occurs (Deletes key) ((ofCapacity n : Service α).run (older ++ [p])) newer)
    (unfailed : ¬ Occurs (Fails key) ((ofCapacity n : Service α).run (older ++ [p])) newer)
    (roomy : ∀ before a after, newer = before ++ a :: after →
      ¬ Crowded n key ((ofCapacity n : Service α).run older) (p :: before) a) :
    key ∈ ((ofCapacity n : Service α).run (older ++ p :: newer)).cache.keys := by
  induction newer using List.reverseRecOn with
  | nil =>
    rw [run_append]
    exact mem_keys_of_promotes ((sound_ofCapacity n).run older) promotes
  | append_singleton newer a ih =>
    rw [occurs_append, not_or, ← run_append, ← List.append_cons] at undeleted unfailed
    have mem := ih undeleted.1 unfailed.1 fun before b after split =>
      roomy before b (after ++ [a]) (by simp [split])
    have after : (ofCapacity n : Service α).run (older ++ p :: (newer ++ [a])) =
        ((ofCapacity n : Service α).run (older ++ p :: newer)).step a := by
      rw [← List.cons_append, ← List.append_assoc, run_append]
      rfl
    rw [after]
    by_contra out
    have sound := (sound_ofCapacity (α := α) n).run (older ++ p :: newer)
    rcases drops_or_presses sound mem out with (deletes | fails) | ⟨other, presses, -⟩
    · exact undeleted.2 (.inl deletes)
    · exact unfailed.2 (.inl fails)
    · obtain ⟨s, evicts⟩ := evicts_of_presses presses sound mem out
      exact roomy newer a [] rfl (crowded_of_evicts evicts promotes)

end Kept

/-- Whatever is asked of a cache of `n` slots, in whatever order, a key is evicted only when no
fewer than `n` others crowd it since its last promotion. Until then it stays, unless it is deleted
or its own load fails. -/
theorem evicted_only_if_crowded (n : Nat) (key : String) :
    (∀ (as : List (Action ε α)) (a : Action ε α) (s : Slot),
      Evicts key s ((ofCapacity n).run as) a → ∃ older p newer, as = older ++ p :: newer ∧
        Promotes key ((ofCapacity n).run older) p ∧
        ¬ Occurs (Promotes key) ((ofCapacity n).run (older ++ [p])) newer ∧
        Crowded n key ((ofCapacity n).run older) (p :: newer) a) ∧
    ∀ (older : List (Action ε α)) (p : Action ε α) (newer : List (Action ε α)),
      Promotes key ((ofCapacity n).run older) p →
      ¬ Occurs (Deletes key) ((ofCapacity n).run (older ++ [p])) newer →
      ¬ Occurs (Fails key) ((ofCapacity n).run (older ++ [p])) newer →
      (∀ before a after, newer = before ++ a :: after →
        ¬ Crowded n key ((ofCapacity n).run older) (p :: before) a) →
      ((ofCapacity n).run (older ++ p :: newer)).cache.contains key = true := by
  constructor
  · intro as a s evicts
    have mem := evicts.mem_keys ((sound_ofCapacity n).run as)
    obtain ⟨older, p, newer, rfl, promotes, last⟩ := (ordered_run n as).used key mem
    exact ⟨older, p, newer, rfl, promotes, last, crowded_of_evicts evicts promotes⟩
  · intro older p newer promotes undeleted unfailed roomy
    have steady := steady_run (steady_ofCapacity n) (older ++ p :: newer)
    rw [← Cache.Coherent.mem_keys steady]
    exact kept_unless_crowded promotes undeleted unfailed roomy

def loadA : List (Action String Nat) := [.enter "a" ⟨5⟩]

def storeA : Action String Nat := .settle 0 (.ok 7)

def claimB : Action String Nat := .enter "b" ⟨5⟩

theorem crowded_by_third :
    (∃ older p newer, loadA ++ [storeA, claimB] = older ++ p :: newer ∧
      Promotes "a" ((ofCapacity 2).run older) p ∧
      ¬ Occurs (Promotes "a") ((ofCapacity 2).run (older ++ [p])) newer ∧
      Crowded 2 "a" ((ofCapacity 2).run older) (p :: newer) (.enter "c" ⟨5⟩)) ∧
    ((ofCapacity 2 : Service Nat).run (loadA ++ [storeA, claimB])).cache.contains "a" = true := by
  have stored : Promotes "a" ((ofCapacity 2 : Service Nat).run loadA) storeA :=
    .store ⟨⟨0, "a", ⟨5⟩, some ⟨⟨0⟩, 1⟩, 1⟩, 7, rfl, ⟨by decide, _, rfl, rfl⟩, rfl⟩
  have roomy : ¬ Crowded 2 "a" ((ofCapacity 2 : Service Nat).run loadA) [storeA] claimB := by
    rintro ⟨others, two, crowds⟩
    have only : others ⊆ {"b"} := by
      intro j mem
      obtain ⟨ne, (first | second | no) | ⟨call, current, -⟩⟩ := crowds j mem
      · have sound := (sound_ofCapacity (α := Nat) 2).run loadA
        exact absurd (stored.unique first sound.ticketed) ne
      · have sound := (sound_ofCapacity (α := Nat) 2).run (loadA ++ [storeA])
        exact Finset.mem_singleton.2 (Option.some.inj (second.subject? sound.ticketed)).symm
      · cases no
      · have idle : ((ofCapacity 2 : Service Nat).run (loadA ++ [storeA])).running = [] := rfl
        exact nomatch idle ▸ current.1
    exact absurd (two.trans (Finset.card_le_card only)) (by decide)
  constructor
  · exact (evicted_only_if_crowded 2 "a").1 (loadA ++ [storeA, claimB]) (.enter "c" ⟨5⟩) ⟨0⟩
      ⟨⟨"c", ⟨5⟩, rfl⟩, by decide, by decide⟩
  · refine (evicted_only_if_crowded 2 "a").2 loadA storeA [claimB] stored ?_ ?_ ?_
    · rintro (⟨no, -⟩ | no) <;> cases no
    · rintro (⟨_, _, no, -⟩ | no) <;> cases no
    · intro before a after split
      rcases List.cons_eq_append_iff.1 split with ⟨rfl, split⟩ | ⟨_, -, no⟩
      · cases split
        exact roomy
      · simp at no

end Service

end Arbiter
