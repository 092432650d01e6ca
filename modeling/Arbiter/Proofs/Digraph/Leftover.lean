import Arbiter.Proofs.Digraph.Cycles
import Arbiter.Proofs.Digraph.Growth
import Arbiter.Proofs.Digraph.Peel

namespace Arbiter

namespace Digraph

variable {g : Digraph} {u v : Nat} {done left : List Nat}

structure Leftover (g : Digraph) (left : List Nat) : Prop where
  ascending : left.Pairwise (· < ·)
  mem_iff : ∀ v, v ∈ left ↔
    ∃ u, Relation.TransGen g.Edge u u ∧ Relation.ReflTransGen g.Edge u v

theorem Orders.not_mem_of_cyclic (h : g.Orders done) (path : Relation.TransGen g.Edge v v) :
    v ∉ done := by
  induction done generalizing v with
  | nil => exact List.not_mem_nil
  | cons w done ih =>
    intro mem
    obtain ⟨u, back, edge⟩ := Relation.TransGen.tail'_iff.1 path
    cases mem with
    -- The vertex before it on the cycle would have been taken earlier, and lies on a cycle too.
    | head => exact ih h.2 (.head' edge back) (h.1.preceded u edge)
    | tail _ mem => exact ih h.2 path mem

theorem Orders.not_mem_of_behind (h : g.Orders done) (round : Relation.TransGen g.Edge u u)
    (path : Relation.ReflTransGen g.Edge u v) : v ∉ done := by
  induction path with
  | refl => exact h.not_mem_of_cyclic round
  | tail _ edge ih => exact fun mem => ih (h.preceded mem edge)

theorem order_eq_error : g.order = .error left ↔
    g.peel.emitted.length ≠ g.size ∧ g.vertices.filter (0 < g.peel.degree ·) = left := by
  rw [Digraph.order]
  split
  · refine iff_of_false ?_ fun h => absurd ‹_› h.1
    rintro ⟨⟩
  · rw [Except.error.injEq, and_iff_right ‹_›]

namespace Peel

variable {p q : Peel} {n : Nat}

def Lowers (g : Digraph) (p q : Peel) (w : Nat) : Prop :=
  ∃ v ready before after, p.ready = v :: ready ∧ g.successors v = before ++ w :: after ∧
    q = before.foldl relax { p with ready, emitted := v :: p.emitted }

/-- No vertex is emitted twice, and no degree is lowered that is zero. -/
structure Guarded (g : Digraph) (p : Peel) : Prop where
  nodup : p.emitted.Nodup
  fresh : ∀ v ∈ p.ready, v ∉ p.emitted
  positive : ∀ q w, Lowers g p q w → 0 < q.degree w

theorem Sound.positive (h : p.Sound g) (closed : ∀ u v, g.Edge u v → v < g.size)
    (lowers : Lowers g p q v) : 0 < q.degree v := by
  obtain ⟨u, ready, before, after, is, split, same⟩ := lowers
  have enough := h.enough closed is
  simp only [split, List.count_append] at enough
  have relaxed := h.relaxed_of_count is fun w => (Nat.le_add_right _ _).trans (enough w)
  rw [← same] at relaxed
  have counted := enough v
  rw [List.count_cons_self] at counted
  have left : q.degree v = p.degree v - before.count v := relaxed.degree v
  omega

theorem Sound.guarded (h : p.Sound g) (closed : ∀ u v, g.Edge u v → v < g.size) : p.Guarded g :=
  ⟨h.greedy.orders.nodup, fun v mem => ((h.ready v).1 mem).fresh, fun _ _ => h.positive closed⟩

theorem Sound.degree_pos_iff (h : p.Sound g) (stuck : ∀ v, ¬ g.Ready p.emitted v)
    (lt : v < g.size) : 0 < p.degree v ↔ v ∉ p.emitted := by
  rw [Nat.pos_iff_ne_zero, h.degree v lt, Ne, count_pending_eq_zero_iff]
  refine not_congr ⟨fun preceded => ?_, fun mem u => h.greedy.orders.preceded mem⟩
  by_contra fresh
  exact stuck v ⟨lt, fresh, preceded⟩

end Peel

namespace Coherent

theorem lt_of_behind (c : g.Coherent) (round : Relation.TransGen g.Edge u u)
    (path : Relation.ReflTransGen g.Edge u v) : v < g.size := by
  obtain ⟨w, -, edge⟩ := Relation.TransGen.tail'_iff.1 (round.trans_left path)
  exact c.closed w v edge

theorem not_ready (c : g.Coherent) (v : Nat) : ¬ g.Ready g.peel.emitted v := by
  rcases c.peel_complete with all | stuck
  · exact fun ready => ready.fresh (c.peel_sound.greedy.orders.complete_iff.1 all v ready.lt)
  · exact stuck v

theorem leftover (c : g.Coherent) (h : g.order = .error left) : g.Leftover left := by
  obtain ⟨-, rfl⟩ := order_eq_error.1 h
  have orders := c.peel_sound.greedy.orders
  refine ⟨List.pairwise_lt_range.filter _, fun v => ?_⟩
  rw [List.mem_filter, vertices, List.mem_range, decide_eq_true_eq]
  constructor
  · rintro ⟨lt, counted⟩
    have fresh := (c.peel_sound.degree_pos_iff c.not_ready lt).1 counted
    by_contra clear
    obtain ⟨w, ready⟩ := exists_ready lt fresh fun u round path => clear ⟨u, round, path⟩
    exact c.not_ready w ready
  · rintro ⟨u, round, path⟩
    have lt := c.lt_of_behind round path
    exact ⟨lt, (c.peel_sound.degree_pos_iff c.not_ready lt).2 (orders.not_mem_of_behind round path)⟩

theorem order_fails_iff (c : g.Coherent) :
    (∃ left, g.order = .error left) ↔ ∃ v, Relation.TransGen g.Edge v v := by
  rw [← not_iff_not, not_exists, not_exists, ← Acyclic, ← c.order_iff_acyclic]
  cases g.order with
  | ok order => exact iff_of_true (fun _ => nofun) ⟨order, rfl⟩
  | error left => exact iff_of_false (fun none => none left rfl) fun ⟨_, ok⟩ => nomatch ok

theorem closedCycle?_leftover (c : g.Coherent) (h : g.order = .error left) :
    ∃ vs, g.IsCycle vs ∧ g.closedCycle? left = some (vs ++ vs.head?.toList) := by
  cases found : g.firstCycle? left with
  | some vs =>
    refine ⟨vs, isCycle_of_firstCycle? found, ?_⟩
    rw [closedCycle?, found, Option.map_some]
  | none =>
    rw [firstCycle?, List.head?_eq_none_iff] at found
    obtain ⟨v, round⟩ := c.order_fails_iff.1 ⟨left, h⟩
    have mem := ((c.leftover h).mem_iff v).2 ⟨v, round, .refl⟩
    exact absurd round (not_cyclic_of_root found mem)

end Coherent

/-- An order fails if and only if there is a cycle, and leaves over just what lies on a cycle or
behind one. A peeling never counts below zero and never emits a vertex twice, and as many steps as
there are vertices bring it to its end. -/
theorem order_leaves_cyclic (gs : List Growth) :
    ((∃ left, (grow gs).order = .error left) ↔ ∃ v, Relation.TransGen (grow gs).Edge v v) ∧
    (∀ left, (grow gs).order = .error left → (grow gs).Leftover left) ∧
    (∀ n, ((Peel.start (grow gs)).run (grow gs) n).Guarded (grow gs)) ∧
    (grow gs).peel.ready = [] := by
  have c := coherent_grow gs
  refine ⟨c.order_fails_iff, fun _ => c.leftover, fun n => ?_, ?_⟩
  · exact ((Peel.sound_start (grow gs)).run c.closed n).1.guarded c.closed
  · refine List.eq_nil_iff_forall_not_mem.2 fun v mem => ?_
    exact c.not_ready v ((c.peel_sound.ready v).1 mem)

example : (grow [.join "root" "x", .join "x" "y", .join "y" "x", .join "y" "tail"]).order =
    .error [1, 2, 3] := by
  rfl

end Digraph

end Arbiter
