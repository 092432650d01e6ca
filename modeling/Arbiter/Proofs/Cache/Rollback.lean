import Arbiter.Proofs.Cache.Recency

namespace Arbiter

namespace Cache

universe u v

variable {α : Type u} {ε : Type v}

structure Restored (c c' : Cache α) (s : Slot) : Prop where
  table : ∀ j : String, c'.table[j]? = c.table[j]?
  owner : c'.owner? = c.owner?
  recency : c'.links.recency = c.links.recency
  freeStack : c'.links.freeStack = c.links.freeStack
  content : ∀ t, (c'.cell t).content = (c.cell t).content
  cell : ∀ t, t ≠ s → c'.cell t = c.cell t

/-- `old` is gone and its slot `s` on top of the free stack. But for the counters and the generation
of `s`, all else is as it was. -/
structure Without (c c' : Cache α) (old : String) (s : Slot) : Prop where
  mapped : c.table[old]? = some s
  table : ∀ j : String, c'.table[j]? = (c.table.erase old)[j]?
  owner : c'.owner? = Function.update c.owner? s none
  recency : c'.links.recency = c.links.recency.erase s
  freeStack : c'.links.freeStack = s :: c.links.freeStack
  vacant : (c'.cell s).content = .vacant
  cell : ∀ t, t ≠ s → c'.cell t = c.cell t

inductive RolledBack (c : Cache α) (key : String) (c' : Cache α) : Prop
  | free (s : Slot) (free : List Slot) (unmapped : c.table[key]? = none)
      (top : c.links.freeStack = s :: free) (restored : c.Restored c' s) : RolledBack c key c'
  | expired (s : Slot) (without : c.Without c' key s) : RolledBack c key c'
  | full (s : Slot) (old : String) (unmapped : c.table[key]? = none)
      (full : c.links.freeStack = []) (victim : c.Victim old) (without : c.Without c' old s) :
      RolledBack c key c'

variable {c c' : Cache α} {key old : String} {s : Slot} {x : Cell α} {now : Instant}
  {ttl : Duration} {load : String → Except (LoadError ε) α} {error : LoadError ε}

section Taken

variable {table : Std.TreeMap String Slot} {recency free : List Slot}

theorem Shows.fail {ended : Cache α} (h : c'.Steady)
    (shows : c'.Shows table (Function.update c.cell s x) (s :: recency) free)
    (mapped : table[key]? = some s) (loading : x.content = .loading)
    (ends : (c'.settle now key ttl (some ⟨s, x.generation⟩)
      (.error error : Except (LoadError ε) α)).1 = ended) :
    ended.Steady ∧ ended.Shows (table.erase key) (Function.update c.cell s x.reset) recency
      (s :: free) := by
  subst ends
  have counted := (Coherent.record h (loadEvent (.error error : Except (LoadError ε) α))).steady
  obtain ⟨steady, completed⟩ :=
    counted.complete now key ⟨s, x.generation⟩ ttl (.error error : Except (LoadError ε) α)
  have cell : c'.cell s = x := by rw [shows.cell, Function.update_self]
  refine ⟨steady, ?_⟩
  cases completed with
  | settled _ settled =>
    have shown : Shows _ (c'.table.erase key) (Function.update c'.cell s (c'.cell s).reset)
      (c'.links.recency.erase s) (s :: c'.links.freeStack) := settled
    rwa [shows.table, cell, shows.cell, shows.recency, shows.free, Function.update_idem,
      List.erase_cons_head] at shown
  | displaced displaced =>
    have holds : c'.holds key ⟨s, x.generation⟩ = true := by
      rw [holds_iff, shows.table, cell]
      exact ⟨mapped, loading, rfl⟩
    exact absurd (holds.symm.trans displaced) nofun

theorem Shows.erased {cell : Slot → Cell α}
    (shows : c'.Shows (table.erase key) cell recency free) : c'.table[key]? = none := by
  rw [shows.table, Std.TreeMap.getElem?_erase_self]

theorem Shows.restored (h : c.Steady) (h' : c'.Steady)
    (shows : c'.Shows table (Function.update c.cell s x) c.links.recency c.links.freeStack)
    (same : ∀ j : String, table[j]? = c.table[j]?) (content : x.content = (c.cell s).content) :
    c.Restored c' s where
  table j := by rw [shows.table, same]
  owner := by
    funext t
    refine h.owner?_congr h' fun j => ?_
    rw [shows.table, same]
  recency := shows.recency
  freeStack := shows.free
  content t := by
    rw [shows.cell]
    by_cases e : t = s
    · rw [e, Function.update_self, content]
    · rw [Function.update_of_ne e]
  cell t ne := by rw [shows.cell, Function.update_of_ne ne]

theorem Shows.without (h : c.Steady) (h' : c'.Steady)
    (shows : c'.Shows table (Function.update c.cell s x) (c.links.recency.erase s)
      (s :: c.links.freeStack))
    (mapped : c.table[old]? = some s) (same : ∀ j : String, table[j]? = (c.table.erase old)[j]?)
    (vacant : x.content = .vacant) : c.Without c' old s where
  mapped := mapped
  table j := by rw [shows.table, same]
  owner := by
    funext t
    apply Option.ext
    intro j
    rw [← h'.table_iff, shows.table, same]
    exact inverse_erase h.table_iff mapped j t
  recency := shows.recency
  freeStack := shows.free
  vacant := by rw [shows.cell, Function.update_self, vacant]
  cell t ne := by rw [shows.cell, Function.update_of_ne ne]

end Taken

theorem get_failed {table : Std.TreeMap String Slot} {recency free : List Slot}
    (positive : ttl.isZero = false) (failed : load key = .error error)
    (e : c.lookup now key = (c', .claimed ⟨s, x.generation⟩)) (h : c'.Steady)
    (shows : c'.Shows table (Function.update c.cell s x) (s :: recency) free)
    (mapped : table[key]? = some s) (loading : x.content = .loading) :
    (c.get now key ttl load).2 = some ⟨.error error, true⟩ ∧
      (c.get now key ttl load).1.Steady ∧ (c.get now key ttl load).1.Shows
        (table.erase key) (Function.update c.cell s x.reset) recency (s :: free) := by
  rw [get, c.enter_lookup now key positive, e]
  simp only [admitted, failed]
  exact ⟨by rw [settle_snd], shows.fail h mapped loading rfl⟩

theorem peek_mapped (mapped : c.table[key]? = some s) :
    c.peek now key = (c.cell s).content.fresh? now := by
  rw [peek, mapped]
  rfl

theorem getElem?_erase_insert {table : Std.TreeMap String Slot} (unmapped : table[key]? = none)
    (j : String) : ((table.insert key s).erase key)[j]? = table[j]? := by
  by_cases e : j = key
  · rw [e, Std.TreeMap.getElem?_erase_self, unmapped]
  · rw [getElem?_erase_of_ne e, getElem?_insert_of_ne e]

theorem Steady.get_error (h : c.Steady) (positive : ttl.isZero = false) (slots : c.capacity ≠ 0)
    (stale : c.peek now key = none) (idle : ¬ c.Loading key) (failed : load key = .error error) :
    (c.get now key ttl load).2 = some ⟨.error error, true⟩ ∧
      (c.get now key ttl load).1.table[key]? = none ∧
      c.RolledBack key (c.get now key ttl load).1 := by
  obtain ⟨steady, looked⟩ := h.lookup now key
  cases e : c.lookup now key with
  | mk c' l =>
  rw [e] at steady looked
  dsimp only at steady looked
  cases looked with
  | inFlight s mapped loading => exact absurd ⟨s, mapped, loading⟩ idle
  | hit s value expiry mapped stored fresh =>
    rw [peek_mapped mapped, stored, Content.fresh?, if_pos fresh] at stale
    cases stale
  | unavailable empty => exact absurd empty slots
  | reload s value expiry mapped stored _ shows =>
    obtain ⟨own, steady', shown⟩ := get_failed positive failed e steady shows mapped rfl
    exact ⟨own, shown.erased, .expired s (shown.without h steady' mapped (fun _ => rfl) rfl)⟩
  | fill s free unmapped top shows =>
    have mapped := Std.TreeMap.getElem?_insert_self (t := c.table) (k := key) (v := s)
    obtain ⟨own, steady', shown⟩ := get_failed positive failed e steady shows mapped rfl
    have vacant := Coherent.content_of_free h (s := s) (top ▸ List.mem_cons_self)
    refine ⟨own, shown.erased, .free s free unmapped top ?_⟩
    rw [← top] at shown
    exact shown.restored h steady' (getElem?_erase_insert unmapped) vacant.symm
  | evict s old unmapped full victim owned shows =>
    have mapped := Std.TreeMap.getElem?_insert_self (t := c.table.erase old) (k := key) (v := s)
    obtain ⟨own, steady', shown⟩ := get_failed positive failed e steady shows mapped rfl
    refine ⟨own, shown.erased, .full s old unmapped full (h.victim victim owned) ?_⟩
    rw [← full] at shown
    exact shown.without h steady' owned
      (getElem?_erase_insert (getElem?_erase_eq_none unmapped)) rfl

/-- In every state that any number of callers lead to, a get that has to load and whose loader fails
returns that failure, and undoes what it did. -/
theorem failed_get_rolls_back (n : Nat) (as : List (Action ε α)) (key : String)
    (ttl : Duration) (load : String → Except (LoadError ε) α) (error : LoadError ε)
    (σ : Service α) (ran : σ = (Service.ofCapacity (n + 1)).run as)
    (positive : ttl.isZero = false) (stale : σ.cache.peek σ.now key = none)
    (idle : ¬ σ.cache.Loading key) (failed : load key = .error error) :
    (σ.cache.get σ.now key ttl load).2 = some ⟨.error error, true⟩ ∧
      (σ.cache.get σ.now key ttl load).1.table[key]? = none ∧
      σ.cache.RolledBack key (σ.cache.get σ.now key ttl load).1 := by
  subst ran
  have slots := (Service.capacity_run_ofCapacity (α := α) (n + 1) as).trans_ne n.succ_ne_zero
  exact (Service.steady_run (Service.steady_ofCapacity (n + 1)) as).get_error positive slots stale
    idle failed

def halfLoaded : Service Nat :=
  (Service.ofCapacity 2).run
    ([.enter "a" ⟨5⟩, .settle 0 (.ok 7), .enter "b" ⟨5⟩] : List (Action String Nat))

def failC (_ : String) : Except (LoadError String) Nat := .error (.loader "c")

theorem failed_get_leaves_free :
    (halfLoaded.cache.get .origin "c" ⟨5⟩ failC).2 = some ⟨.error (.loader "c"), true⟩ ∧
      (halfLoaded.cache.get .origin "c" ⟨5⟩ failC).1.table["c"]? = none ∧
      halfLoaded.cache.RolledBack "c" (halfLoaded.cache.get .origin "c" ⟨5⟩ failC).1 ∧
      (halfLoaded.cache.get .origin "c" ⟨5⟩ failC).1.keys = ["b"] := by
  have unmapped : halfLoaded.cache.table["c"]? = none := by decide
  have idle : ¬ halfLoaded.cache.Loading "c" := by
    rintro ⟨s, mapped, -⟩
    cases unmapped.symm.trans mapped
  have rolled := failed_get_rolls_back 1 _ "c" ⟨5⟩ failC (.loader "c") halfLoaded rfl rfl
    (by decide) idle rfl
  exact ⟨rolled.1, rolled.2.1, rolled.2.2, by decide⟩

end Cache

end Arbiter
