import Arbiter.Proofs.Links.Records
import Arbiter.Proofs.Cache.Service

/-!
The slots of a cache with all their fields, each of which is overwritten for itself. A state has
room for a value wherever its slot is, loading or not, so that one could be left behind. None is:
the cache over such states is that over cells, step by step and answer by answer.
-/

namespace Arbiter

universe u v

variable {α : Type u} {ε : Type v}

/-- `expiry` is `none` where it is unset. -/
structure SlotState (α : Type u) where
  value : Option α
  expiry : Option Expiry
  loading : Bool
  generation : UInt64

namespace SlotState

def empty : SlotState α := ⟨none, none, false, 0⟩

def beginLoad (x : SlotState α) : SlotState α :=
  { x with value := none, expiry := none, loading := true, generation := x.generation + 1 }

def reset (x : SlotState α) : SlotState α :=
  { x with value := none, expiry := none, loading := false, generation := x.generation + 1 }

def store (x : SlotState α) (value : α) (expiry : Expiry) : SlotState α :=
  { x with value := some value, expiry := some expiry, loading := false }

def isLoading (x : SlotState α) (generation : UInt64) : Bool :=
  x.loading && x.generation == generation

def fresh? (x : SlotState α) (now : Instant) : Option α :=
  if x.loading || !x.expiry.any (Expiry.isFresh now) then none else x.value

end SlotState

def Cell.state (x : Cell α) : SlotState α :=
  ⟨x.content.value?, x.content.expiry?, x.content.isLoading, x.generation⟩

theorem Cell.isLoading_state (x : Cell α) (generation : UInt64) :
    x.state.isLoading generation = x.isLoading generation := rfl

theorem Cell.fresh?_state (x : Cell α) (now : Instant) :
    x.state.fresh? now = x.content.fresh? now := by
  obtain ⟨content, generation⟩ := x
  cases content with
  | vacant => rfl
  | loading => rfl
  | stored value expiry =>
    show (if (false || !expiry.isFresh now) = true then _ else _) = if _ then _ else _
    cases expiry.isFresh now <;> rfl

namespace Cache

structure Raw (α : Type u) where
  table : Std.TreeMap String Slot
  owners : Arena (Option String)
  links : Links
  slots : Arena (SlotState α)
  counters : Counters

namespace Raw

def ofCapacity (n : Nat) : Raw α :=
  ⟨∅, .ofFn n fun _ => none, .ofCapacity n, .ofFn n fun _ => .empty, .zero⟩

def state (r : Raw α) (s : Slot) : SlotState α := r.slots[s]?.getD .empty

def record (r : Raw α) (e : Event) : Raw α := { r with counters := r.counters.record e }

def touch (r : Raw α) (s : Slot) : Raw α := { r with links := r.links.moveToFront s }

def update (r : Raw α) (s : Slot) (f : SlotState α → SlotState α) : Raw α :=
  { r with slots := r.slots.modify s f }

def assign (r : Raw α) (s : Slot) (key : String) : Raw α :=
  { r with owners := r.owners.set s (some key), table := r.table.insert key s,
           links := r.links.pushFront s }

def unassign (r : Raw α) (s : Slot) : Raw α :=
  match r.owners[s]?.join with
  | some key =>
    { r with owners := r.owners.set s none, table := r.table.erase key, links := r.links.unlink s }
  | none => r

def release (r : Raw α) (s : Slot) : Raw α :=
  let r := r.unassign s
  { r with links := r.links.pushFree s }

def victim? (r : Raw α) : Option Slot :=
  (r.links.oldestFirst.find? fun s => !(r.state s).loading).or r.links.tail

def evict? (r : Raw α) : Option (Slot × Raw α) :=
  r.victim?.map fun s => (s, ((r.unassign s).update s .reset).record .eviction)

def takeSlot? (r : Raw α) : Option (Slot × Raw α) :=
  match r.links.popFree? with
  | some (s, links) => some (s, { r with links })
  | none => r.evict?

def claim (r : Raw α) (s : Slot) : Raw α × Lookup α :=
  let x := (r.state s).beginLoad
  ({ r with slots := r.slots.set s x }, .claimed ⟨s, x.generation⟩)

def lookup (r : Raw α) (now : Instant) (key : String) : Raw α × Lookup α :=
  match r.table[key]? with
  | some s =>
    let x := r.state s
    if x.loading then (r, .inFlight ⟨s, x.generation⟩)
    else
      match x.fresh? now with
      | some value => ((r.touch s).record .hit, .hit value)
      | none =>
        let (r, claimed) := r.claim s
        ((r.touch s).record .miss, claimed)
  | none =>
    let r := r.record .miss
    match r.takeSlot? with
    | some (s, r) => (r.assign s key).claim s
    | none => (r, .unavailable)

def complete (r : Raw α) (now : Instant) (key : String) (claim : Ticket) (ttl : Duration)
    (outcome : Except (LoadError ε) α) : Raw α × Except (LoadError ε) α :=
  if r.table[key]? != some claim.slot || !(r.state claim.slot).isLoading claim.generation then
    (r, outcome)
  else
    match outcome with
    | .ok value =>
      ((r.update claim.slot (·.store value (.after now ttl))).touch claim.slot, .ok value)
    | .error e => ((r.update claim.slot .reset).release claim.slot, .error e)

def peek (r : Raw α) (now : Instant) (key : String) : Option α :=
  r.table[key]?.bind fun s => (r.state s).fresh? now

def delete (r : Raw α) (key : String) : Raw α × Bool :=
  match r.table[key]? with
  | some s => (((r.release s).update s .reset).record .deletion, true)
  | none => (r, false)

def enter (r : Raw α) (now : Instant) (key : String) (ttl : Duration) : Raw α × Admission α :=
  if ttl.isZero then (r.record .bypass, .run none)
  else
    match r.lookup now key with
    | (r, .hit value) => (r, .hit value)
    | (r, .inFlight load) => (r.record .wait, .wait load)
    | (r, .claimed claim) => (r, .run (some claim))
    | (r, .unavailable) => (r, .run none)

def settle (r : Raw α) (now : Instant) (key : String) (ttl : Duration) (claim : Option Ticket)
    (outcome : Except (LoadError ε) α) : Raw α × Except (LoadError ε) α :=
  let r := r.record (loadEvent outcome)
  match claim with
  | some claim => r.complete now key claim ttl outcome
  | none => (r, outcome)

end Raw

def raw (c : Cache α) : Raw α :=
  ⟨c.table, c.owners, c.links, c.cells.map Cell.state, c.counters⟩

section Raw

variable (c : Cache α) (s : Slot) (now : Instant) (key : String) (ttl : Duration)

theorem raw_ofCapacity (n : Nat) : (ofCapacity n : Cache α).raw = .ofCapacity n := by
  rw [raw, ofCapacity, Raw.ofCapacity, Arena.map_ofFn]
  rfl

theorem state_raw : c.raw.state s = (c.cell s).state := by
  rw [Raw.state, raw, Arena.getElem?_map, cell]
  cases c.cells[s]? <;> rfl

theorem raw_unassign : (c.unassign s).raw = c.raw.unassign s := by
  rw [unassign, Raw.unassign, owner?]
  show _ = match c.owners[s]?.join with | some key => _ | none => _
  cases c.owners[s]?.join <;> rfl

theorem raw_release : (c.release s).raw = c.raw.release s := by
  rw [Raw.release, ← raw_unassign]
  rfl

theorem raw_modify {f : Cell α → Cell α} {g : SlotState α → SlotState α}
    (same : ∀ x, (f x).state = g x.state) :
    ({ c with cells := c.cells.modify s f } : Cache α).raw = c.raw.update s g := by
  have slots := c.cells.map_modify (s := s) fun x (_ : x ∈ c.cells[s]?) => same x
  simp only [raw, Raw.update, slots]

theorem raw_reset : (c.reset s).raw = c.raw.update s .reset := c.raw_modify s fun _ => rfl

theorem raw_store (value : α) (expiry : Expiry) :
    (c.store s value expiry).raw = c.raw.update s (·.store value expiry) :=
  c.raw_modify s fun _ => rfl

theorem raw_victim? : c.raw.victim? = c.victim? := by
  simp only [Raw.victim?, state_raw]
  rfl

theorem raw_evict? : c.raw.evict? = c.evict?.map (Prod.map id raw) := by
  rw [Raw.evict?, raw_victim?, evict?, Option.map_map]
  congr 1
  funext s
  rw [← raw_unassign, ← raw_reset]
  rfl

theorem raw_takeSlot? : c.raw.takeSlot? = c.takeSlot?.map (Prod.map id raw) := by
  rw [Raw.takeSlot?, takeSlot?, raw_evict?]
  show (match c.links.popFree? with | some (s, links) => _ | none => _) = _
  cases c.links.popFree? <;> rfl

theorem raw_claim : c.raw.claim s = (c.claim s).map raw id := by
  rw [Raw.claim, state_raw, claim]
  simp only [Prod.map, raw, Arena.map_set]
  rfl

theorem raw_lookup : c.raw.lookup now key = (c.lookup now key).map raw id := by
  rw [Raw.lookup, lookup]
  show (match c.table[key]? with | some s => _ | none => _) = _
  cases c.table[key]? with
  | some s =>
    simp only [state_raw, Cell.fresh?_state, raw_claim]
    show (if (c.cell s).content.isLoading = true then _ else _) = _
    cases (c.cell s).content.isLoading with
    | true => rfl
    | false => cases (c.cell s).content.fresh? now <;> rfl
  | none =>
    show (match (c.record .miss).raw.takeSlot? with | some (s, r) => _ | none => _) = _
    rw [raw_takeSlot?]
    dsimp only
    cases (c.record .miss).takeSlot? with
    | none => rfl
    | some taken => exact raw_claim (taken.2.assign taken.1 key) taken.1

theorem raw_complete (claim : Ticket) (outcome : Except (LoadError ε) α) :
    c.raw.complete now key claim ttl outcome =
      (c.complete now key claim ttl outcome).map raw id := by
  have lost : (c.raw.table[key]? != some claim.slot ||
      !(c.raw.state claim.slot).isLoading claim.generation) = !c.holds key claim := by
    rw [state_raw, Cell.isLoading_state, holds, Bool.not_and]
    rfl
  unfold Raw.complete complete
  rw [lost]
  cases c.holds key claim with
  | false => rfl
  | true =>
    cases outcome with
    | ok value =>
      simp only [← raw_store]
      rfl
    | error error =>
      simp only [← raw_reset, ← raw_release]
      rfl

theorem raw_peek : c.raw.peek now key = c.peek now key := by
  simp only [Raw.peek, state_raw, Cell.fresh?_state]
  rfl

theorem raw_delete : c.raw.delete key = (c.delete key).map raw id := by
  rw [Raw.delete, delete]
  show (match c.table[key]? with | some s => _ | none => _) = _
  cases c.table[key]? with
  | some s =>
    simp only [← raw_release, ← raw_reset]
    rfl
  | none => rfl

theorem raw_enter : c.raw.enter now key ttl = (c.enter now key ttl).map raw id := by
  rw [Raw.enter, enter, raw_lookup]
  split
  · rfl
  · obtain ⟨c', lookup⟩ := c.lookup now key
    cases lookup <;> rfl

theorem raw_settle (claim : Option Ticket) (outcome : Except (LoadError ε) α) :
    c.raw.settle now key ttl claim outcome = (c.settle now key ttl claim outcome).map raw id := by
  cases claim with
  | some claim => exact (c.record (loadEvent outcome)).raw_complete now key ttl claim outcome
  | none => rfl

end Raw

inductive Operation (ε : Type v) (α : Type u) where
  | enter (now : Instant) (key : String) (ttl : Duration)
  | settle (now : Instant) (key : String) (ttl : Duration) (claim : Option Ticket)
      (outcome : Except (LoadError ε) α)
  | delete (key : String)
  | peek (now : Instant) (key : String)

inductive Answer (ε : Type v) (α : Type u) where
  | admitted (admission : Admission α)
  | settled (result : Except (LoadError ε) α)
  | deleted (mapped : Bool)
  | found (value : Option α)

def act (c : Cache α) : Operation ε α → Cache α × Answer ε α
  | .enter now key ttl => (c.enter now key ttl).map id .admitted
  | .settle now key ttl claim outcome => (c.settle now key ttl claim outcome).map id .settled
  | .delete key => (c.delete key).map id .deleted
  | .peek now key => (c, .found (c.peek now key))

def replay (c : Cache α) (os : List (Operation ε α)) : Cache α :=
  os.foldl (fun c o => (c.act o).1) c

def Raw.act (r : Raw α) : Operation ε α → Raw α × Answer ε α
  | .enter now key ttl => (r.enter now key ttl).map id .admitted
  | .settle now key ttl claim outcome => (r.settle now key ttl claim outcome).map id .settled
  | .delete key => (r.delete key).map id .deleted
  | .peek now key => (r, .found (r.peek now key))

def Raw.replay (r : Raw α) (os : List (Operation ε α)) : Raw α :=
  os.foldl (fun r o => (r.act o).1) r

theorem raw_act (c : Cache α) (o : Operation ε α) : c.raw.act o = (c.act o).map raw id := by
  cases o with
  | enter now key ttl => exact congrArg (Prod.map id Answer.admitted) (c.raw_enter now key ttl)
  | settle now key ttl claim outcome =>
    exact congrArg (Prod.map id Answer.settled) (c.raw_settle now key ttl claim outcome)
  | delete key => exact congrArg (Prod.map id Answer.deleted) (c.raw_delete key)
  | peek now key => exact congrArg (fun value => (c.raw, Answer.found value)) (c.raw_peek now key)

theorem raw_replay (c : Cache α) (os : List (Operation ε α)) :
    c.raw.replay os = (c.replay os).raw := by
  induction os generalizing c with
  | nil => rfl
  | cons o os ih =>
    rw [Raw.replay, List.foldl_cons, raw_act]
    exact ih (c.act o).1

end Cache

namespace Service

def operation? (σ : Service α) : Action ε α → Option (Cache.Operation ε α)
  | .enter key ttl => some (.enter σ.now key ttl)
  | .settle id outcome => (σ.running.find? (·.id == id)).map fun call =>
      .settle σ.now call.key call.ttl call.claim outcome
  | .delete key => some (.delete key)
  | .peek key => some (.peek σ.now key)
  | .advance _ => none

def log (σ : Service α) : List (Action ε α) → List (Cache.Operation ε α)
  | [] => []
  | a :: as => (σ.operation? a).toList ++ (σ.step a).log as

theorem cache_step (σ : Service α) (a : Action ε α) :
    (σ.step a).cache = σ.cache.replay (σ.operation? a).toList := by
  cases a with
  | enter key ttl =>
    show (σ.respond key ttl (σ.cache.enter σ.now key ttl)).1.cache = (σ.cache.enter σ.now key ttl).1
    obtain ⟨c, admission⟩ := σ.cache.enter σ.now key ttl
    cases admission <;> rfl
  | settle id outcome =>
    rw [step, act, operation?]
    cases σ.running.find? (·.id == id) <;> rfl
  | delete key => rfl
  | peek key => rfl
  | advance span =>
    rw [step, act]
    cases σ.now.add? span <;> rfl

theorem cache_run (σ : Service α) (as : List (Action ε α)) :
    (σ.run as).cache = σ.cache.replay (σ.log as) := by
  induction as generalizing σ with
  | nil => rfl
  | cons a as ih =>
    rw [run_cons, ih, log, Cache.replay, Cache.replay, List.foldl_append, cache_step]
    rfl

/-- The same operations on slot states. The claims they end are those that were handed out. -/
theorem raw_run (σ : Service α) (as : List (Action ε α)) :
    σ.cache.raw.replay (σ.log as) = (σ.run as).cache.raw := by
  rw [Cache.raw_replay, cache_run]

end Service

end Arbiter
