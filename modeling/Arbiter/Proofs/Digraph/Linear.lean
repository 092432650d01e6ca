import Arbiter.Proofs.Digraph.Coherent
import Mathlib.Data.Fintype.Card
import Mathlib.Data.Fintype.EquivFin
import Mathlib.Data.List.Lex
import Mathlib.Data.List.Perm.Subperm
import Mathlib.Logic.Relation
import Mathlib.Order.WellFounded

/-!
Orders of the vertices in which every edge leads forward. One that always takes the smallest vertex
whose predecessors have all been taken is the least of them, and it gets stuck only where there is
a cycle.

Orders under way are lists of the vertices taken so far, the latest first.
-/

namespace Arbiter

namespace Digraph

variable {g : Digraph} {u v : Nat} {done order other : List Nat}

/-- All predecessors of `v` are done, and `v` is not. -/
structure Ready (g : Digraph) (done : List Nat) (v : Nat) : Prop where
  lt : v < g.size
  fresh : v ∉ done
  preceded : ∀ u, g.Edge u v → u ∈ done

def Orders (g : Digraph) : List Nat → Prop
  | [] => True
  | v :: done => g.Ready done v ∧ g.Orders done

/-- An order that always takes the smallest vertex that is ready. -/
def Greedy (g : Digraph) : List Nat → Prop
  | [] => True
  | v :: done => g.Ready done v ∧ (∀ w, g.Ready done w → v ≤ w) ∧ g.Greedy done

structure Linear (g : Digraph) (order : List Nat) : Prop where
  nodup : order.Nodup
  mem_iff : ∀ v, v ∈ order ↔ v < g.size
  before : ∀ u v, g.Edge u v → order.idxOf u < order.idxOf v

def Acyclic (g : Digraph) : Prop := ∀ v, ¬ Relation.TransGen g.Edge v v

theorem Greedy.orders (h : g.Greedy done) : g.Orders done := by
  induction done with
  | nil => trivial
  | cons v done ih => exact ⟨h.1, ih h.2.2⟩

namespace Orders

theorem nodup (h : g.Orders done) : done.Nodup := by
  induction done with
  | nil => exact List.nodup_nil
  | cons v done ih => exact List.nodup_cons.2 ⟨h.1.fresh, ih h.2⟩

theorem lt (h : g.Orders done) (mem : v ∈ done) : v < g.size := by
  induction done with
  | nil => cases mem
  | cons w done ih =>
    cases mem with
    | head => exact h.1.lt
    | tail _ mem => exact ih h.2 mem

theorem preceded (h : g.Orders done) (mem : v ∈ done) (edge : g.Edge u v) : u ∈ done := by
  induction done with
  | nil => cases mem
  | cons w done ih =>
    cases mem with
    | head => exact List.mem_cons_of_mem _ (h.1.preceded u edge)
    | tail _ mem => exact List.mem_cons_of_mem _ (ih h.2 mem)

theorem before (h : g.Orders done) (mem : v ∈ done) (edge : g.Edge u v) :
    done.reverse.idxOf u < done.reverse.idxOf v := by
  induction done with
  | nil => cases mem
  | cons w done ih =>
    rw [List.reverse_cons]
    by_cases earlier : v ∈ done
    · have mem_u := h.2.preceded earlier edge
      rw [List.idxOf_append_of_mem (List.mem_reverse.2 mem_u),
        List.idxOf_append_of_mem (List.mem_reverse.2 earlier)]
      exact ih h.2 earlier
    · obtain rfl := (List.mem_cons.1 mem).resolve_right earlier
      have mem_u := h.1.preceded u edge
      rw [List.idxOf_append_of_mem (List.mem_reverse.2 mem_u),
        List.idxOf_append_of_notMem (mt List.mem_reverse.1 earlier)]
      exact Nat.lt_add_right _ (List.idxOf_lt_length_of_mem (List.mem_reverse.2 mem_u))

theorem length_le (h : g.Orders done) : done.length ≤ g.size := by
  have sub : done ⊆ List.range g.size := fun v mem => List.mem_range.2 (h.lt mem)
  simpa using (h.nodup.subperm sub).length_le

theorem complete_iff (h : g.Orders done) : done.length = g.size ↔ ∀ v, v < g.size → v ∈ done := by
  have sub : done ⊆ List.range g.size := fun v mem => List.mem_range.2 (h.lt mem)
  constructor
  · intro all v lt
    have perm := (h.nodup.subperm sub).perm_of_length_le (by simp [all])
    exact perm.mem_iff.2 (List.mem_range.2 lt)
  · intro all
    have sup : List.range g.size ⊆ done := fun v mem => all v (List.mem_range.1 mem)
    refine Nat.le_antisymm h.length_le ?_
    simpa using (List.nodup_range.subperm sup).length_le

theorem ready_cons_iff (h : g.Orders done) (ready : g.Ready done v)
    (closed : ∀ u v, g.Edge u v → v < g.size) : g.Ready (v :: done) u ↔
      (g.Ready done u ∧ u ≠ v) ∨ g.Edge v u ∧ ∀ w, g.Edge w u → w ∈ v :: done := by
  constructor
  · rintro ⟨lt, fresh, preceded⟩
    rw [List.mem_cons, not_or] at fresh
    by_cases edge : g.Edge v u
    · exact .inr ⟨edge, preceded⟩
    · refine .inl ⟨⟨lt, fresh.2, fun w edge' => ?_⟩, fresh.1⟩
      refine (List.mem_cons.1 (preceded w edge')).resolve_left ?_
      rintro rfl
      exact edge edge'
  · rintro (⟨⟨lt, fresh, preceded⟩, ne⟩ | ⟨edge, preceded⟩)
    · refine ⟨lt, ?_, fun w edge => List.mem_cons_of_mem v (preceded w edge)⟩
      exact List.not_mem_cons_of_ne_of_not_mem ne fresh
    · -- The predecessors of what is done were done before it, and `v` was not.
      refine ⟨closed v u edge, List.not_mem_cons_of_ne_of_not_mem ?_ ?_, preceded⟩
      · rintro rfl
        exact ready.fresh (ready.preceded u edge)
      · exact fun mem => ready.fresh (h.preceded mem edge)

theorem linear (h : g.Orders done) (closed : ∀ u v, g.Edge u v → v < g.size)
    (all : done.length = g.size) : g.Linear done.reverse := by
  refine ⟨List.nodup_reverse.2 h.nodup, fun v => ?_, fun u v edge => ?_⟩
  · rw [List.mem_reverse]
    exact ⟨h.lt, h.complete_iff.1 all v⟩
  · exact h.before (h.complete_iff.1 all v (closed u v edge)) edge

end Orders

namespace Linear

theorem length (h : g.Linear order) : order.length = g.size := by
  have perm : order.Perm (List.range g.size) :=
    (List.perm_ext_iff_of_nodup h.nodup List.nodup_range).2 fun v => by
      rw [h.mem_iff, List.mem_range]
  rw [perm.length_eq, List.length_range]

theorem orders (h : g.Linear order) : g.Orders order.reverse := by
  have from_ : ∀ done later, order = done.reverse ++ later → g.Orders done := by
    intro done
    induction done with
    | nil => exact fun _ _ => trivial
    | cons v done ih =>
      intro later is
      rw [List.reverse_cons, List.append_assoc, List.singleton_append] at is
      have nodup := is ▸ h.nodup
      rw [List.nodup_middle, List.nodup_cons, List.mem_append, not_or] at nodup
      refine ⟨⟨?_, mt List.mem_reverse.2 nodup.1.1, fun u edge => ?_⟩, ih (v :: later) is⟩
      · rw [← h.mem_iff, is]
        exact List.mem_append_right _ List.mem_cons_self
      · have before := h.before u v edge
        rw [is, List.idxOf_append_of_notMem nodup.1.1, List.idxOf_cons_self] at before
        by_contra out
        rw [List.idxOf_append_of_notMem (mt List.mem_reverse.1 out)] at before
        omega
  exact from_ order.reverse [] (by simp)

theorem acyclic (h : g.Linear order) : g.Acyclic := by
  have later : ∀ u v, Relation.TransGen g.Edge u v → order.idxOf u < order.idxOf v := by
    intro u v path
    induction path with
    | single edge => exact h.before _ _ edge
    | tail _ edge ih => exact Nat.lt_trans ih (h.before _ _ edge)
  exact fun v path => Nat.lt_irrefl _ (later v v path)

end Linear

section Least

theorem lex_append {xs ys : List Nat} (h : List.Lex (· < ·) xs ys) (length : xs.length = ys.length)
    (xs' ys' : List Nat) : List.Lex (· < ·) (xs ++ xs') (ys ++ ys') := by
  induction h with
  | nil => cases length
  | rel lt => exact .rel lt
  | cons _ ih => exact .cons (ih (Nat.succ.inj length))

theorem Greedy.least (h : g.Greedy order) (h' : g.Orders other)
    (length : order.length = other.length) :
    order = other ∨ List.Lex (· < ·) order.reverse other.reverse := by
  induction order generalizing other with
  | nil => exact .inl (List.length_eq_zero_iff.1 length.symm).symm
  | cons v order ih =>
    cases other with
    | nil => cases length
    | cons w other =>
      have length := Nat.succ.inj length
      rw [List.reverse_cons, List.reverse_cons]
      rcases ih h.2.2 h'.2 length with rfl | smaller
      · -- The same vertices are done, so what the other order takes was ready for the greedy one.
        rcases Nat.lt_or_eq_of_le (h.2.1 w h'.1) with lt | rfl
        · exact .inr (List.Lex.append_left _ (.rel lt) _)
        · exact .inl rfl
      · refine .inr (lex_append smaller ?_ _ _)
        rw [List.length_reverse, List.length_reverse, length]

end Least

section Stuck

theorem exists_ready (lt : u < g.size) (left : u ∉ done)
    (clear : ∀ v, Relation.TransGen g.Edge v v → ¬ Relation.ReflTransGen g.Edge v u) :
    ∃ v, g.Ready done v := by
  let Behind (a b : Fin g.size) : Prop :=
    Relation.TransGen g.Edge a b ∧ Relation.ReflTransGen g.Edge b u
  have : IsTrans (Fin g.size) Behind := ⟨fun _ _ _ ab bc => ⟨ab.1.trans bc.1, bc.2⟩⟩
  have : Std.Irrefl Behind := ⟨fun a round => clear a round.1 round.2⟩
  have founded := Finite.wellFounded_of_trans_of_irrefl Behind
  -- Of the vertices left that lead to `u`, one that lies behind no other of them.
  obtain ⟨v, ⟨fresh, leads⟩, first⟩ := founded.has_min
    {v | v.val ∉ done ∧ Relation.ReflTransGen g.Edge v u} ⟨⟨u, lt⟩, left, .refl⟩
  refine ⟨v, v.isLt, fresh, fun w edge => ?_⟩
  by_contra out
  exact first ⟨w, edge.lt⟩ ⟨out, leads.head edge⟩ ⟨.single edge, leads⟩

end Stuck

end Digraph

end Arbiter
