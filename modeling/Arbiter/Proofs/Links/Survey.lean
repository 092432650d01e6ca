import Arbiter.Proofs.Links.Audit
import Arbiter.Proofs.Links.Records

namespace Arbiter

namespace Links

def Trail.unseen (t : Trail) : Nat := t.seen.cells.toList.count false

theorem Trail.unseen_visit {t : Trail} {s : Slot} (unseen : t.seen[s]? = some false) :
    (t.visit s).unseen < t.unseen := by
  obtain ⟨lt, is⟩ := Array.getElem?_eq_some_iff.1 unseen
  have lt' : s.offset < t.seen.cells.toList.length := lt
  have is' : t.seen.cells.toList[s.offset] = false := is
  have left : 0 < t.seen.cells.toList.count false :=
    List.count_pos_iff.2 (is' ▸ List.getElem_mem lt')
  rw [Trail.unseen, Trail.unseen, Trail.visit, Arena.set, Array.toList_setIfInBounds,
    List.count_set lt', is', if_pos (beq_self_eq_true false), if_neg (by decide)]
  exact Nat.sub_lt left Nat.one_pos

end Links

namespace Records

open Links (Fault Trail)

/-- What a walk expects of the records on its way, and the faults it finds otherwise. -/
structure Route where
  membership : Membership
  stranger : Slot → Fault
  again : Slot → Fault
  twoWay : Bool

namespace Route

def recency : Route := ⟨.linked, .notLinked, fun _ => .cycle, true⟩

def free : Route := ⟨.free, .notFree, .repeated, false⟩

end Route

def follow (r : Records) (route : Route) (t : Trail) : Option Slot → Except Fault Trail
  | none => .ok t
  | some s =>
    match r.nodes[s]? with
    | none => .error (.outOfRange s)
    | some node =>
      if node.membership ≠ route.membership then .error (route.stranger s)
      else if _ : t.seen[s]? = some false then
        if route.twoWay = true ∧ node.prev ≠ t.last then .error (.stalePrev s)
        else r.follow route (t.visit s) node.next
      else .error (route.again s)
termination_by t.unseen
decreasing_by exact Links.Trail.unseen_visit ‹_›

def detachedCount (r : Records) : Nat :=
  r.nodes.cells.toList.countP (·.membership = .detached)

def blank (r : Records) : Trail := .start (.ofFn r.nodes.capacity fun _ => false)

def check (r : Records) : Except Fault Unit := do
  let linked ← r.follow .recency r.blank r.head
  if r.tail ≠ linked.last then throw .wrongTail
  if linked.count ≠ r.length then throw (.recencyLength linked.count r.length)
  let free ← r.follow .free (.start linked.seen) r.top
  if free.count ≠ r.freeLength then throw (.freeLength free.count r.freeLength)
  if linked.count + free.count + r.detachedCount ≠ r.nodes.capacity then throw .accounting

example : check ⟨⟨#[⟨some ⟨0⟩, none, .linked⟩]⟩, some ⟨0⟩, some ⟨0⟩, none, 1, 0⟩ =
    .error (.stalePrev ⟨0⟩) := by cbv

def Path (nodes : Arena Record) (route : Route) : Option Slot → List Slot → Prop
  | _, [] => True
  | prev, s :: slots =>
    (∃ node, nodes[s]? = some node ∧ node.membership = route.membership ∧
      node.next = slots.head? ∧ (route.twoWay = true → node.prev = prev)) ∧
    Path nodes route (some s) slots

theorem follow_eq {r : Records} {route : Route} {prev : Option Slot} {slots : List Slot} {t : Trail}
    (path : Path r.nodes route prev slots) (nodup : slots.Nodup) (last : t.last = prev)
    (unseen : ∀ s ∈ slots, t.seen[s]? = some false) :
    r.follow route t slots.head? = .ok (slots.foldl Trail.visit t) := by
  induction slots generalizing prev t with
  | nil => rw [List.head?_nil, follow, List.foldl_nil]
  | cons s slots ih =>
    rw [List.nodup_cons] at nodup
    rw [List.forall_mem_cons] at unseen
    obtain ⟨⟨node, at_s, member, next, back⟩, rest⟩ := path
    have onward := ih (t := t.visit s) rest nodup.2 rfl fun u hu => by
      rw [Links.Trail.seen_visit_of_ne (ne_of_mem_of_not_mem hu nodup.1)]
      exact unseen.2 u hu
    rw [List.head?_cons, follow]
    simp only [at_s]
    rw [if_neg (not_not_intro member), dif_pos unseen.1, if_neg, next, onward]
    · rfl
    · rintro ⟨twoWay, stale⟩
      exact stale ((back twoWay).trans last.symm)

end Records

namespace Links

open Records (Route Path)

variable {l : Links} {linked free slots : List Slot} {prev : Option Slot}

theorem Chain.path (h : Chain l.nodes prev slots none) :
    Path l.records.nodes .recency prev slots := by
  induction slots generalizing prev with
  | nil => trivial
  | cons s slots ih =>
    refine ⟨⟨⟨prev, slots.head?, .linked⟩, ?_, rfl, rfl, fun _ => rfl⟩, ih h.2⟩
    rw [records, Arena.getElem?_map, h.1, Option.or_none]
    rfl

theorem Stack.path (h : Stack l.nodes slots) : Path l.records.nodes .free prev slots := by
  induction slots generalizing prev with
  | nil => trivial
  | cons s slots ih =>
    refine ⟨⟨⟨none, slots.head?, .free⟩, ?_, rfl, rfl, nofun⟩, ih h.2⟩
    rw [records, Arena.getElem?_map, h.1]
    rfl

theorem detachedCount_records (l : Links) : l.records.detachedCount = l.detachedCount := by
  rw [Records.detachedCount, records, Arena.map, Array.toList_map, List.countP_map, detachedCount]
  congr 1
  funext node
  cases node <;> rfl

end Links

structure Records.Surveyed (r : Records) (linked free : List Slot) : Prop where
  check : r.check = .ok ()
  forward : r.follow .recency r.blank r.head = .ok (linked.foldl Links.Trail.visit r.blank)
  nodup_linked : linked.Nodup
  mem_linked : ∀ s, s ∈ linked ↔ r.membership? s = some .linked
  back : ∀ before s after, linked = before ++ s :: after →
    r.nodes[s]? = some ⟨before.getLast?, after.head?, .linked⟩
  tail : r.tail = linked.getLast?
  length : r.length = linked.length
  freeWalk : r.follow .free (.start (linked.foldl Links.Trail.visit r.blank).seen) r.top =
    .ok (free.foldl Links.Trail.visit (.start (linked.foldl Links.Trail.visit r.blank).seen))
  nodup_free : free.Nodup
  mem_free : ∀ s, s ∈ free ↔ r.membership? s = some .free
  freeLength : r.freeLength = free.length
  total : r.length + r.freeLength + r.detachedCount = r.nodes.capacity

namespace Links

variable {l : Links} {linked free : List Slot}

section Walks

theorem unseen_blank {s : Slot} (lt : s.offset < l.capacity) :
    l.records.blank.seen[s]? = some false := by
  show (Arena.ofFn (l.nodes.map Link.record).capacity fun _ => false)[s]? = some false
  rw [Arena.getElem?_ofFn, Arena.capacity_map]
  exact if_pos lt

theorem Threads.forward (h : l.Threads linked free) :
    l.records.follow .recency l.records.blank l.records.head =
      .ok (linked.foldl Trail.visit l.records.blank) := by
  have head : l.records.head = linked.head? := h.head
  rw [head]
  exact Records.follow_eq h.chain.path h.nodup_linked rfl
    fun s hs => unseen_blank (h.lt_of_linked hs)

theorem Threads.freeWalk (h : l.Threads linked free) :
    l.records.follow .free (.start (linked.foldl Trail.visit l.records.blank).seen)
        l.records.top =
      .ok (free.foldl Trail.visit (.start (linked.foldl Trail.visit l.records.blank).seen)) := by
  have top : l.records.top = free.head? := h.top
  rw [top]
  refine Records.follow_eq h.stack.path h.nodup_free rfl fun s hs => ?_
  rw [Trail.start, Trail.seen_visits_of_not_mem fun hl => h.disjoint hl hs]
  exact unseen_blank (h.lt_of_free hs)

theorem Threads.total (h : l.Threads linked free) :
    linked.length + free.length + l.records.detachedCount = l.records.nodes.capacity := by
  rw [detachedCount_records, h.count_slots]
  exact (Arena.capacity_map ..).symm

theorem Threads.check (h : l.Threads linked free) : l.records.check = .ok () := by
  have tail : l.records.tail = linked.getLast? := h.tail
  have length : l.records.length = linked.length := h.length
  have freeLength : l.records.freeLength = free.length := h.freeLength
  rw [Records.check, h.forward]
  simp only [bind, Except.bind, h.freeWalk, Trail.last_visits, Trail.count_visits, tail, length,
    freeLength]
  simp [Records.blank, Trail.start, h.total, pure, Except.pure]

end Walks

theorem Threads.surveyed (h : l.Threads linked free) : l.records.Surveyed linked free where
  check := h.check
  forward := h.forward
  nodup_linked := h.nodup_linked
  mem_linked s := by
    rw [h.linked_iff, membership?_records]
    cases l.nodes[s]? with
    | none => simp
    | some node => cases node <;> simp [Link.record]
  back before s after is := by
    subst is
    rw [records, Arena.getElem?_map, h.node_of_linked]
    rfl
  tail := h.tail
  length := h.length
  freeWalk := h.freeWalk
  nodup_free := h.nodup_free
  mem_free s := by
    rw [h.free_iff, membership?_records]
    cases l.nodes[s]? with
    | none => simp
    | some node => cases node <;> simp [Link.record]
  freeLength := h.freeLength
  total := by
    have sum := h.total
    rwa [← h.length, ← h.freeLength] at sum

/-- After any operations on any slots the self-check of the records passes, and so does that of the
links, which the records hold as they are. -/
theorem survey_replay (n : Nat) (os : List Operation) :
    let l := (replay Links.act (.ofCapacity n) os).1
    let r := (replay Records.act (.ofCapacity n) os).1
    r = l.records ∧ r.nodes.capacity = n ∧ l.audit = .ok () ∧
      ∃ linked free, r.Surveyed linked free := by
  intro l r
  have same : r = l.records := by
    have replayed := (threading_ofCapacity n).records_replay os
    rw [records_ofCapacity] at replayed
    exact congrArg Prod.fst replayed
  have threading := ((threading_ofCapacity n).replay os).1
  refine ⟨same, ?_, threading.threads.audit, _, _, same ▸ threading.threads.surveyed⟩
  rw [same]
  exact (Arena.capacity_map ..).trans threading.capacity

end Links

end Arbiter
