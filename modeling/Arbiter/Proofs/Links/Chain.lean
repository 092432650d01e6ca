import Arbiter.Slot.Links
import Mathlib.Data.List.Nodup

namespace Arbiter

namespace Links

/-- The nodes of `slots` are linked both ways in this order, between `prev` and `next`. -/
def Chain (nodes : Arena Link) : Option Slot → List Slot → Option Slot → Prop
  | _, [], _ => True
  | prev, s :: slots, next =>
    nodes[s]? = some (.linked prev (slots.head?.or next)) ∧ Chain nodes (some s) slots next

/-- The nodes of `slots` are free, each above the next. -/
def Stack (nodes : Arena Link) : List Slot → Prop
  | [] => True
  | s :: slots => nodes[s]? = some (.free slots.head?) ∧ Stack nodes slots

variable {nodes nodes' : Arena Link} {prev next : Option Slot} {s : Slot} {slots : List Slot}

theorem Chain.congr (h : Chain nodes prev slots next) (same : ∀ t ∈ slots, nodes'[t]? = nodes[t]?) :
    Chain nodes' prev slots next := by
  induction slots generalizing prev with
  | nil => trivial
  | cons s slots ih =>
    refine ⟨?_, ih h.2 fun t ht => same t (List.mem_cons_of_mem _ ht)⟩
    rw [same s List.mem_cons_self]
    exact h.1

theorem Stack.congr (h : Stack nodes slots) (same : ∀ t ∈ slots, nodes'[t]? = nodes[t]?) :
    Stack nodes' slots := by
  induction slots with
  | nil => trivial
  | cons s slots ih =>
    refine ⟨?_, ih h.2 fun t ht => same t (List.mem_cons_of_mem _ ht)⟩
    rw [same s List.mem_cons_self]
    exact h.1

theorem Chain.linked_of_mem (h : Chain nodes prev slots next) (hs : s ∈ slots) :
    ∃ p n, nodes[s]? = some (.linked p n) := by
  induction slots generalizing prev with
  | nil => cases hs
  | cons t slots ih =>
    cases hs with
    | head => exact ⟨_, _, h.1⟩
    | tail _ hs => exact ih h.2 hs

theorem Stack.free_of_mem (h : Stack nodes slots) (hs : s ∈ slots) :
    ∃ n, nodes[s]? = some (.free n) := by
  induction slots with
  | nil => cases hs
  | cons t slots ih =>
    cases hs with
    | head => exact ⟨_, h.1⟩
    | tail _ hs => exact ih h.2 hs

theorem chain_append {xs ys : List Slot} :
    Chain nodes prev (xs ++ ys) next ↔
      Chain nodes prev xs (ys.head?.or next) ∧ Chain nodes (xs.getLast?.or prev) ys next := by
  induction xs generalizing prev with
  | nil => simp [Chain]
  | cons s xs ih =>
    simp only [List.cons_append, Chain, ih, and_assoc, List.head?_append, Option.or_assoc]
    rw [List.getLast?_cons, Option.some_or]
    cases xs.getLast? <;> simp

def pointNext (nodes : Arena Link) (prev next : Option Slot) : Arena Link :=
  match prev with
  | some p => nodes.modify p (Link.withNext next)
  | none => nodes

def pointPrev (nodes : Arena Link) (prev next : Option Slot) : Arena Link :=
  match next with
  | some n => nodes.modify n (Link.withPrev prev)
  | none => nodes

theorem getElem?_pointNext_of_ne (h : prev ≠ some s) :
    (pointNext nodes prev next)[s]? = nodes[s]? := by
  cases prev with
  | none => rfl
  | some p =>
    rw [pointNext, Arena.getElem?_modify, if_neg]
    intro e
    exact h (congrArg some e)

theorem getElem?_pointPrev_of_ne (h : next ≠ some s) :
    (pointPrev nodes prev next)[s]? = nodes[s]? := by
  cases next with
  | none => rfl
  | some n =>
    rw [pointPrev, Arena.getElem?_modify, if_neg]
    intro e
    exact h (congrArg some e)

theorem Chain.pointNext (h : Chain nodes prev slots next) (nodup : slots.Nodup)
    (next' : Option Slot) :
    Chain (Links.pointNext nodes slots.getLast? next') prev slots next' := by
  induction slots generalizing prev with
  | nil => trivial
  | cons s slots ih =>
    rw [List.nodup_cons] at nodup
    cases slots with
    | nil =>
      refine ⟨?_, trivial⟩
      simp [Links.pointNext, Arena.getElem?_modify, h.1, Link.withNext]
    | cons t slots =>
      rw [List.getLast?_cons_cons]
      refine ⟨?_, ih h.2 nodup.2⟩
      rw [getElem?_pointNext_of_ne]
      · simpa using h.1
      · intro e
        exact nodup.1 (List.mem_of_getLast? e)

theorem Chain.pointPrev (h : Chain nodes prev slots next) (nodup : slots.Nodup)
    (prev' : Option Slot) :
    Chain (Links.pointPrev nodes prev' slots.head?) prev' slots next := by
  cases slots with
  | nil => trivial
  | cons s slots =>
    rw [List.nodup_cons] at nodup
    refine ⟨?_, h.2.congr fun t ht => getElem?_pointPrev_of_ne ?_⟩
    · simp [Links.pointPrev, Arena.getElem?_modify, h.1, Link.withPrev]
    · intro e
      cases e
      exact nodup.1 ht

end Links

end Arbiter
