import Arbiter.Proofs.Cache.Refinement

namespace Arbiter

universe u v w

variable {α : Type u} {ε : Type v}

namespace Serial

def state {σ : Type w} (respond : σ → Instant → Request ε α → σ × Response ε α) (s : σ)
    (now : Instant) : List (Event ε α) → σ
  | [] => s
  | .ask r :: es => state respond (respond s now r).1 now es
  | .advance span :: es => state respond s ((now.add? span).getD now) es

/-- The same asked of two caches. A loader may come to another value at one than at the other, but
it comes to some value at both. -/
inductive Request.Alike : Request ε α → Request ε α → Prop
  | get (key : String) (ttl : Duration) (load load' : String → Except (LoadError ε) α)
      (value value' : α) (ok : load key = .ok value) (ok' : load' key = .ok value') :
      Alike (.get key ttl load) (.get key ttl load')
  | peek (key : String) : Alike (.peek key) (.peek key)
  | contains (key : String) : Alike (.contains key) (.contains key)
  | delete (key : String) : Alike (.delete key) (.delete key)
  | size : Alike .size .size
  | keys : Alike .keys .keys

inductive Event.Alike : Event ε α → Event ε α → Prop
  | ask (r r' : Request ε α) (alike : r.Alike r') : Alike (.ask r) (.ask r')
  | advance (span : Duration) : Alike (.advance span) (.advance span)

end Serial

namespace Lru

variable {l l' : Lru α} {key : String} {ttl : Duration} {now : Instant}
  {load load' : String → Except (LoadError ε) α} {value value' : α}

section Keys

theorem keys_erase (l : Lru α) (key : String) :
    (l.erase key).keys = l.keys.filter (· != key) := by
  rw [keys, keys, List.filter_map]
  rfl

theorem keys_push (l : Lru α) (e : Entry α) : (l.push e).keys = e.key :: l.keys := rfl

theorem keys_makeRoom (l : Lru α) : l.makeRoom.keys =
    if l.keys.length = l.capacity then l.keys.dropLast else l.keys := by
  rw [keys, keys, List.length_map, makeRoom]
  split
  · exact List.map_dropLast
  · rfl

theorem contains_iff : l.contains key = true ↔ key ∈ l.keys := by
  simp [contains, find?, keys]

theorem key_of_find? {e : Entry α} (found : l.find? key = some e) : e.key = key := by
  simpa using List.find?_some found

theorem keys_get (positive : ttl.isZero = false) (ok : load key = .ok value) :
    (l.get now key ttl load).1.keys =
      key :: if key ∈ l.keys then l.keys.filter (· != key) else l.makeRoom.keys := by
  rw [get, if_neg (by simp [positive]), ok, ← keys_erase]
  cases found : l.find? key with
  | some e =>
    have mem : key ∈ l.keys := contains_iff.1 (by rw [contains, found]; rfl)
    rw [if_pos mem]
    dsimp only
    split
    · rw [keys_push, key_of_find? found]
    · exact keys_push _ _
  | none =>
    have out : key ∉ l.keys := fun mem => by simpa [contains, found] using contains_iff.2 mem
    rw [if_neg out]
    exact keys_push _ _

end Keys

section Prefix

theorem makeRoom_prefix (l : Lru α) : l.makeRoom.keys <+: l.keys := by
  rw [keys_makeRoom]
  split
  · exact List.dropLast_prefix _
  · exact List.prefix_rfl

theorem keys_makeRoom_prefix (le : l.capacity ≤ l'.capacity)
    (bounded : l.keys.length ≤ l.capacity) (keys : l.keys <+: l'.keys) :
    l.makeRoom.keys <+: l'.makeRoom.keys := by
  by_cases full : l'.keys.length = l'.capacity
  · rw [l'.keys_makeRoom, if_pos full]
    by_cases same : l.keys.length = l'.keys.length
    · have room : l.makeRoom.keys = l'.keys.dropLast := by
        rw [keys_makeRoom, if_pos (by omega), keys.eq_of_length same]
      exact room ▸ List.prefix_rfl
    · have shorter : l.keys.length ≤ l'.keys.dropLast.length := by
        have := keys.length_le
        rw [List.length_dropLast]
        omega
      exact l.makeRoom_prefix.trans
        (List.prefix_of_prefix_length_le keys (List.dropLast_prefix _) shorter)
  · rw [l'.keys_makeRoom, if_neg full]
    exact l.makeRoom_prefix.trans keys

theorem keys_get_prefix (le : l.capacity ≤ l'.capacity) (bounded : l.keys.length ≤ l.capacity)
    (keys : l.keys <+: l'.keys) (ok : load key = .ok value) (ok' : load' key = .ok value') :
    (l.get now key ttl load).1.keys <+: (l'.get now key ttl load').1.keys := by
  cases zero : ttl.isZero with
  | true =>
    rw [get, get, if_pos zero, if_pos zero]
    exact keys
  | false =>
    rw [keys_get zero ok, keys_get zero ok', List.cons_prefix_cons, and_iff_right rfl]
    by_cases mem : key ∈ l.keys
    · rw [if_pos mem, if_pos (keys.subset mem)]
      exact keys.filter _
    · rw [if_neg mem]
      by_cases mem' : key ∈ l'.keys
      · -- The larger only moves the key to the front, where the smaller makes room for it.
        rw [if_pos mem']
        have kept : l.keys.filter (· != key) = l.keys := by
          rw [List.filter_eq_self]
          intro j at_j
          simpa using ne_of_mem_of_not_mem at_j mem
        exact l.makeRoom_prefix.trans (kept ▸ keys.filter _)
      · rw [if_neg mem']
        exact keys_makeRoom_prefix le bounded keys

theorem keys_respond_prefix {r r' : Serial.Request ε α} (le : l.capacity ≤ l'.capacity)
    (bounded : l.keys.length ≤ l.capacity) (keys : l.keys <+: l'.keys)
    (alike : r.Alike r') :
    (l.respond now r).1.keys <+: (l'.respond now r').1.keys := by
  cases alike with
  | get key ttl load load' value value' ok ok' => exact keys_get_prefix le bounded keys ok ok'
  | delete key =>
    show (l.erase key).keys <+: (l'.erase key).keys
    rw [keys_erase, keys_erase]
    exact keys.filter _
  | peek | contains | size | keys => exact keys

end Prefix

end Lru

namespace Cache

theorem Mirrors.length_keys_le {c : Cache α} {l : Lru α} (h : c.Mirrors l) :
    l.keys.length ≤ l.capacity := by
  have count := Coherent.count_slots h.steady
  rw [h.entries.length_eq, h.capacity] at count
  rw [Lru.keys, List.length_map]
  omega

/-- The keys of `c`, which is no larger, are the first keys of `c'`, and no load is under way. -/
structure Within (c c' : Cache α) (l l' : Lru α) : Prop where
  small : c.Mirrors l
  large : c'.Mirrors l'
  positive : 0 < l.capacity
  capacity_le : l.capacity ≤ l'.capacity
  keys_prefix : l.keys <+: l'.keys

namespace Within

variable {c c' : Cache α} {l l' : Lru α}

theorem respond (h : c.Within c' l l') (now : Instant) {r r' : Serial.Request ε α}
    (alike : r.Alike r') :
    (c.respond now r).1.Within (c'.respond now r').1 (l.respond now r).1 (l'.respond now r').1 where
  small := (h.small.respond h.positive now r).1
  large := (h.large.respond (Nat.lt_of_lt_of_le h.positive h.capacity_le) now r').1
  positive := by
    rw [Lru.capacity_respond]
    exact h.positive
  capacity_le := by
    rw [Lru.capacity_respond, Lru.capacity_respond]
    exact h.capacity_le
  keys_prefix := Lru.keys_respond_prefix h.capacity_le h.small.length_keys_le h.keys_prefix alike

theorem state (h : c.Within c' l l') (now : Instant) {es es' : List (Serial.Event ε α)}
    (alike : List.Forall₂ Serial.Event.Alike es es') :
    (Serial.state Cache.respond c now es).Within (Serial.state Cache.respond c' now es')
      (Serial.state Lru.respond l now es) (Serial.state Lru.respond l' now es') := by
  induction alike generalizing c c' l l' now with
  | nil => exact h
  | cons head _ ih =>
    cases head with
    | ask r r' alike => exact ih (h.respond now alike) now
    | advance span => exact ih h _

theorem ofCapacity {n m : Nat} (positive : 0 < n) (le : n ≤ m) :
    (Cache.ofCapacity n : Cache α).Within (Cache.ofCapacity m) (.ofCapacity n) (.ofCapacity m) :=
  ⟨.ofCapacity n, .ofCapacity m, positive, le, List.prefix_rfl⟩

theorem keys (h : c.Within c' l l') : c.keys <+: c'.keys := by
  rw [h.small.keys_eq, h.large.keys_eq]
  exact h.keys_prefix

theorem contains (h : c.Within c' l l') {key : String} (mapped : c.contains key = true) :
    c'.contains key = true := by
  rw [h.small.contains_eq, Lru.contains_iff] at mapped
  rw [h.large.contains_eq, Lru.contains_iff]
  exact h.keys_prefix.subset mapped

theorem delete (h : c.Within c' l l') {key : String} (mapped : (c.delete key).2 = true) :
    (c'.delete key).2 = true := by
  rw [(h.small.delete key).2, Lru.delete, ← h.small.contains_eq] at mapped
  rw [(h.large.delete key).2, Lru.delete, ← h.large.contains_eq]
  exact h.contains mapped

end Within

end Cache

namespace Serial

/-- Of two caches that are asked the same, and whose loads all succeed, the larger has all keys of
the smaller, in the same order and before any others. -/
theorem keys_inclusion (n m : Nat) (positive : 0 < n) (le : n ≤ m) (now : Instant)
    (es es' : List (Event ε α)) (alike : List.Forall₂ Event.Alike es es') :
    (state Cache.respond (.ofCapacity n) now es).keys <+:
      (state Cache.respond (.ofCapacity m) now es').keys ∧
    (∀ key, (state Cache.respond (.ofCapacity n) now es).contains key = true →
      (state Cache.respond (.ofCapacity m) now es').contains key = true) ∧
    ∀ key, ((state Cache.respond (.ofCapacity n) now es).delete key).2 = true →
      ((state Cache.respond (.ofCapacity m) now es').delete key).2 = true := by
  have within := (Cache.Within.ofCapacity positive le).state now alike
  exact ⟨within.keys, fun _ => within.contains, fun _ => within.delete⟩

def load (value : Nat) (_ : String) : Except (LoadError String) Nat := .ok value

def script (value : Nat) : List (Event String Nat) :=
  [.ask (.get "a" ⟨5⟩ (load 1)), .ask (.get "b" ⟨9⟩ (load 2)), .ask (.get "c" ⟨2⟩ (load 3)),
    .ask (.delete "c"), .advance ⟨4⟩, .ask (.get "b" ⟨3⟩ (load value))]

theorem two_slots_include_one :
    (state Cache.respond (.ofCapacity 1) .origin (script 4)).keys = ["b"] ∧
    (state Cache.respond (.ofCapacity 1) .origin (script 4)).peek ⟨4, by decide⟩ "b" = some 4 ∧
    (state Cache.respond (.ofCapacity 2) .origin (script 5)).peek ⟨4, by decide⟩ "b" = some 2 ∧
    (state Cache.respond (.ofCapacity 1) .origin (script 4)).keys <+:
      (state Cache.respond (.ofCapacity 2) .origin (script 5)).keys := by
  have alike : List.Forall₂ Event.Alike (script 4) (script 5) :=
    .cons (.ask _ _ (.get _ _ _ _ _ _ rfl rfl)) (.cons (.ask _ _ (.get _ _ _ _ _ _ rfl rfl))
      (.cons (.ask _ _ (.get _ _ _ _ _ _ rfl rfl)) (.cons (.ask _ _ (.delete _))
        (.cons (.advance _) (.cons (.ask _ _ (.get _ _ _ _ _ _ rfl rfl)) .nil)))))
  exact ⟨by decide, by decide, by decide,
    (keys_inclusion 1 2 (by decide) (by decide) .origin _ _ alike).1⟩

end Serial

end Arbiter
