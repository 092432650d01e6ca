import Arbiter.Digraph.Peel
import Arbiter.Proofs.Digraph.Linear

namespace Arbiter

namespace Digraph

def pending (g : Digraph) (done : List Nat) : List Nat :=
  (g.vertices.filter (· ∉ done)).flatMap g.successors

namespace Peel

variable {g : Digraph} {p : Peel} {u v : Nat} {l ws done : List Nat}

section InsertAscending

theorem mem_insertAscending : u ∈ insertAscending v l ↔ u = v ∨ u ∈ l := by
  induction l with
  | nil => simp [insertAscending]
  | cons w ws ih =>
    rw [insertAscending]
    split
    · exact List.mem_cons
    · rw [List.mem_cons, ih, List.mem_cons]
      exact or_left_comm

theorem sorted_insertAscending (h : l.Pairwise (· < ·)) (out : v ∉ l) :
    (insertAscending v l).Pairwise (· < ·) := by
  induction l with
  | nil => exact List.pairwise_singleton _ v
  | cons w ws ih =>
    rw [List.mem_cons, not_or] at out
    rw [List.pairwise_cons] at h
    rw [insertAscending]
    split
    · have lt : v < w := Nat.lt_of_le_of_ne ‹_› out.1
      refine List.pairwise_cons.2 ⟨?_, List.pairwise_cons.2 h⟩
      exact List.forall_mem_cons.2 ⟨lt, fun u mem => Nat.lt_trans lt (h.1 u mem)⟩
    · refine List.pairwise_cons.2 ⟨fun u mem => ?_, ih h.2 out.2⟩
      rcases mem_insertAscending.1 mem with rfl | mem
      · omega
      · exact h.1 u mem

end InsertAscending

section Degrees

theorem getD_modify (ds : Array Nat) (w v : Nat) (f : Nat → Nat) (zero : f 0 = 0 ∨ v < ds.size) :
    (ds.modify w f)[v]?.getD 0 = if w = v then f (ds[v]?.getD 0) else ds[v]?.getD 0 := by
  rw [Array.getElem?_modify]
  split
  · cases e : ds[v]? with
    | some d => rfl
    | none =>
      rcases zero with zero | lt
      · exact zero.symm
      · rw [Array.getElem?_eq_getElem lt] at e
        cases e
  · rfl

theorem getD_foldl_count (ds : Array Nat) (ws : List Nat) (lt : v < ds.size) :
    (ws.foldl (fun ds w => ds.modify w (· + 1)) ds)[v]?.getD 0 = ds[v]?.getD 0 + ws.count v := by
  induction ws generalizing ds with
  | nil => rfl
  | cons w ws ih =>
    rw [List.foldl_cons, ih _ (by simpa using lt), getD_modify ds w v _ (.inr lt), List.count_cons]
    simp only [beq_iff_eq]
    split <;> omega

theorem size_indegrees (g : Digraph) : (indegrees g).size = g.size := by
  have kept : ∀ (ws : List Nat) (ds : Array Nat),
      (ws.foldl (fun ds w => ds.modify w (· + 1)) ds).size = ds.size := by
    intro ws
    induction ws with
    | nil => exact fun _ => rfl
    | cons w ws ih => exact fun ds => (ih _).trans Array.size_modify
  rw [indegrees, kept, Array.size_replicate]

theorem degree_indegrees (ready emitted : List Nat) (lt : v < g.size) :
    degree ⟨indegrees g, ready, emitted⟩ v = (g.pending []).count v := by
  rw [degree, indegrees, getD_foldl_count _ _ (by simpa using lt)]
  simp [lt, pending]

theorem count_pending_cons (lt : v < g.size) (fresh : v ∉ done) (u : Nat) :
    (g.pending done).count u = (g.successors v).count u + (g.pending (v :: done)).count u := by
  have perm : (g.vertices.filter (· ∉ done)).Perm (v :: g.vertices.filter (· ∉ v :: done)) :=
    filter_vertices_perm lt (by simpa using fresh) (by simp) fun w other => by simp [other]
  rw [pending, (perm.flatMap_right g.successors).count_eq, List.flatMap_cons, List.count_append]
  rfl

theorem count_pending_eq_zero_iff : (g.pending done).count v = 0 ↔ ∀ u, g.Edge u v → u ∈ done := by
  rw [List.count_eq_zero, pending, List.mem_flatMap]
  constructor
  · intro none u edge
    by_contra out
    exact none ⟨u, by simp [vertices, edge.lt, out], edge⟩
  · rintro all ⟨u, mem, edge⟩
    rw [List.mem_filter, decide_eq_true_eq] at mem
    exact mem.2 (all u edge)

end Degrees

/-- What has become of `p` once a predecessor of each of `ws` has been emitted. -/
structure Relaxed (p p' : Peel) (ws : List Nat) : Prop where
  size : p'.indegree.size = p.indegree.size
  emitted : p'.emitted = p.emitted
  degree : ∀ u, p'.degree u = p.degree u - ws.count u
  ready : ∀ u, u ∈ p'.ready ↔ u ∈ p.ready ∨ u ∈ ws ∧ p'.degree u = 0
  sorted : p'.ready.Pairwise (· < ·)

section Relax

theorem degree_relax (p : Peel) (w u : Nat) :
    (p.relax w).degree u = p.degree u - [w].count u := by
  have lowered : (p.relax w).degree u =
      (p.indegree.modify w (· - 1))[u]?.getD 0 := by
    rw [relax]
    dsimp only
    split <;> rfl
  rw [lowered, getD_modify _ _ _ _ (.inl rfl), List.count_singleton]
  simp only [beq_iff_eq]
  split <;> rfl

theorem relaxed_relax {w : Nat} (sorted : p.ready.Pairwise (· < ·)) (out : w ∉ p.ready) :
    Relaxed p (p.relax w) [w] := by
  have degree := degree_relax p w
  rw [relax] at degree ⊢
  dsimp only at degree ⊢
  split
  · refine ⟨Array.size_modify, rfl, ?_, fun u => ?_, sorted_insertAscending sorted out⟩
    · rwa [if_pos ‹_›] at degree
    · rw [mem_insertAscending, List.mem_singleton, or_comm]
      refine or_congr_right (and_iff_left_of_imp ?_).symm
      rintro rfl
      assumption
  · refine ⟨Array.size_modify, rfl, ?_, fun u => ?_, sorted⟩
    · rwa [if_neg ‹_›] at degree
    · rw [List.mem_singleton]
      refine (or_iff_left ?_).symm
      rintro ⟨rfl, zero⟩
      contradiction

theorem Relaxed.cons {p' p'' : Peel} {w : Nat} (first : Relaxed p p' [w])
    (rest : Relaxed p' p'' ws) : Relaxed p p'' (w :: ws) := by
  refine ⟨rest.size.trans first.size, rest.emitted.trans first.emitted, fun u => ?_, fun u => ?_,
    rest.sorted⟩
  · rw [rest.degree, first.degree, List.count_cons (l := ws), List.count_singleton]
    omega
  · have lowered := rest.degree u
    rw [rest.ready, first.ready, List.mem_singleton, List.mem_cons, or_assoc]
    refine or_congr_right ?_
    constructor
    · rintro (⟨rfl, zero⟩ | ⟨mem, zero⟩)
      · exact ⟨.inl rfl, by omega⟩
      · exact ⟨.inr mem, zero⟩
    · rintro ⟨rfl | mem, zero⟩
      · by_cases mem : u ∈ ws
        · exact .inr ⟨mem, zero⟩
        · rw [List.count_eq_zero.2 mem] at lowered
          exact .inl ⟨rfl, by omega⟩
      · exact .inr ⟨mem, zero⟩

theorem relaxed_foldl (zero : ∀ u ∈ p.ready, p.degree u = 0)
    (enough : ∀ u, ws.count u ≤ p.degree u) (sorted : p.ready.Pairwise (· < ·)) :
    Relaxed p (ws.foldl relax p) ws := by
  induction ws generalizing p with
  | nil => exact ⟨rfl, rfl, fun _ => rfl, fun u => by simp, sorted⟩
  | cons w ws ih =>
    have out : w ∉ p.ready := by
      intro mem
      have some_left := enough w
      rw [zero w mem, List.count_cons_self] at some_left
      omega
    have first := relaxed_relax sorted out
    refine first.cons (ih (fun u mem => ?_) (fun u => ?_) first.sorted)
    · rcases (first.ready u).1 mem with mem | ⟨-, zero'⟩
      · rw [first.degree, zero u mem, Nat.zero_sub]
      · exact zero'
    · have le := enough u
      rw [List.count_cons] at le
      rw [first.degree, List.count_singleton]
      omega

end Relax

structure Sound (g : Digraph) (p : Peel) : Prop where
  size : p.indegree.size = g.size
  degree : ∀ v, v < g.size → p.degree v = (g.pending p.emitted).count v
  ready : ∀ v, v ∈ p.ready ↔ g.Ready p.emitted v
  sorted : p.ready.Pairwise (· < ·)
  greedy : g.Greedy p.emitted

theorem sound_start (g : Digraph) : (start g).Sound g := by
  refine ⟨size_indegrees g, fun v => degree_indegrees _ _, fun v => ?_,
    List.pairwise_lt_range.filter _, trivial⟩
  rw [start, List.mem_filter, vertices, List.mem_range, beq_iff_eq]
  constructor
  · rintro ⟨lt, zero⟩
    rw [degree_indegrees _ _ lt, count_pending_eq_zero_iff] at zero
    exact ⟨lt, List.not_mem_nil, zero⟩
  · rintro ⟨lt, -, preceded⟩
    refine ⟨lt, ?_⟩
    rw [degree_indegrees _ _ lt, count_pending_eq_zero_iff]
    exact preceded

section Step

variable {ready : List Nat}

theorem step_ready (g : Digraph) (is : p.ready = v :: ready) :
    step g p = (g.successors v).foldl relax { p with ready, emitted := v :: p.emitted } := by
  rw [step, is]

theorem Sound.enough (h : p.Sound g) (closed : ∀ u v, g.Edge u v → v < g.size)
    (is : p.ready = v :: ready) (u : Nat) : (g.successors v).count u ≤ p.degree u := by
  have is_ready := (h.ready v).1 (is ▸ List.mem_cons_self)
  by_cases edge : g.Edge v u
  · have degree := h.degree u (closed v u edge)
    rw [count_pending_cons is_ready.lt is_ready.fresh] at degree
    exact (Nat.le_add_right _ _).trans_eq degree.symm
  · rw [List.count_eq_zero.2 edge]
    exact Nat.zero_le _

theorem Sound.relaxed_of_count (h : p.Sound g) (is : p.ready = v :: ready)
    (enough : ∀ u, ws.count u ≤ p.degree u) :
    Relaxed { p with ready, emitted := v :: p.emitted }
      (ws.foldl relax { p with ready, emitted := v :: p.emitted }) ws := by
  have sorted := h.sorted
  rw [is, List.pairwise_cons] at sorted
  refine relaxed_foldl (fun u mem => ?_) enough sorted.2
  have is_ready := (h.ready u).1 (is ▸ List.mem_cons_of_mem _ mem)
  exact (h.degree u is_ready.lt).trans (count_pending_eq_zero_iff.2 is_ready.preceded)

theorem Sound.relaxed (h : p.Sound g) (closed : ∀ u v, g.Edge u v → v < g.size)
    (is : p.ready = v :: ready) :
    Relaxed { p with ready, emitted := v :: p.emitted } (step g p) (g.successors v) := by
  rw [step_ready g is]
  exact h.relaxed_of_count is (h.enough closed is)

theorem Sound.step (h : p.Sound g) (closed : ∀ u v, g.Edge u v → v < g.size) :
    (step g p).Sound g := by
  cases is : p.ready with
  | nil =>
    rw [Peel.step, is]
    exact h
  | cons v ready =>
    have is_ready := (h.ready v).1 (is ▸ List.mem_cons_self)
    have sorted := h.sorted
    rw [is, List.pairwise_cons] at sorted
    obtain ⟨size, emitted, degree, ready_iff, sorted'⟩ := h.relaxed closed is
    dsimp only at emitted
    have degree' : ∀ u, u < g.size →
        (Peel.step g p).degree u = (g.pending (v :: p.emitted)).count u := by
      intro u lt
      have before := h.degree u lt
      rw [count_pending_cons is_ready.lt is_ready.fresh] at before
      exact (degree u).trans (Nat.sub_eq_of_eq_add' before)
    have rest : ∀ u, u ∈ ready ↔ g.Ready p.emitted u ∧ u ≠ v := by
      intro u
      rw [← h.ready, is, List.mem_cons, or_and_right, and_not_self_iff, false_or,
        and_iff_left_of_imp]
      exact fun mem => Nat.ne_of_gt (sorted.1 u mem)
    refine ⟨size.trans h.size, ?_, fun u => ?_, sorted', ?_⟩
    · rw [emitted]
      exact degree'
    · rw [emitted, ready_iff, rest, h.greedy.orders.ready_cons_iff is_ready closed]
      refine or_congr_right (and_congr_right fun edge => ?_)
      rw [degree' u (closed v u edge), count_pending_eq_zero_iff]
    · rw [emitted]
      refine ⟨is_ready, fun w is_ready' => ?_, h.greedy⟩
      rw [← h.ready, is, List.mem_cons] at is_ready'
      rcases is_ready' with rfl | mem
      · exact Nat.le_refl w
      · exact Nat.le_of_lt (sorted.1 w mem)

theorem length_emitted_step (h : p.Sound g) (closed : ∀ u v, g.Edge u v → v < g.size)
    (left : p.ready ≠ []) : (step g p).emitted.length = p.emitted.length + 1 := by
  obtain ⟨v, ready, is⟩ := List.exists_cons_of_ne_nil left
  rw [(h.relaxed closed is).emitted, List.length_cons]

end Step

theorem run_idle (g : Digraph) (idle : p.ready = []) (n : Nat) : run g n p = p := by
  induction n with
  | zero => rfl
  | succ n ih =>
    have same : step g p = p := by rw [step, idle]
    rw [run, same, ih]

theorem Sound.run (h : p.Sound g) (closed : ∀ u v, g.Edge u v → v < g.size) (n : Nat) :
    (run g n p).Sound g ∧
      ((run g n p).ready = [] ∨ (run g n p).emitted.length = p.emitted.length + n) := by
  induction n generalizing p with
  | zero => exact ⟨h, .inr rfl⟩
  | succ n ih =>
    by_cases idle : p.ready = []
    · rw [run_idle g idle]
      exact ⟨h, .inl idle⟩
    · obtain ⟨sound, ends⟩ := ih (h.step closed)
      refine ⟨sound, ends.imp_right fun length => ?_⟩
      rw [Peel.run, length, length_emitted_step h closed idle, Nat.add_right_comm, Nat.add_assoc]

end Peel

section Order

variable {g : Digraph} {order : List Nat}

theorem Coherent.peel_sound (c : g.Coherent) : g.peel.Sound g :=
  ((Peel.sound_start g).run c.closed g.size).1

theorem Coherent.peel_complete (c : g.Coherent) :
    g.peel.emitted.length = g.size ∨ ∀ v, ¬ g.Ready g.peel.emitted v := by
  obtain ⟨sound, idle | length⟩ := (Peel.sound_start g).run c.closed g.size
  · refine .inr fun v ready => ?_
    have mem := (sound.ready v).2 ready
    rw [idle] at mem
    cases mem
  · exact .inl (length.trans (Nat.zero_add _))

theorem order_eq_ok : g.order = .ok order ↔
    g.peel.emitted.length = g.size ∧ g.peel.emitted.reverse = order := by
  rw [Digraph.order]
  split
  · rw [Except.ok.injEq, and_iff_right ‹_›]
  · exact iff_of_false nofun fun h => absurd h.1 ‹_›

theorem Coherent.linear_of_order (c : g.Coherent) (h : g.order = .ok order) : g.Linear order := by
  obtain ⟨all, rfl⟩ := order_eq_ok.1 h
  exact c.peel_sound.greedy.orders.linear c.closed all

theorem Coherent.order_least (c : g.Coherent) (h : g.order = .ok order) {other : List Nat}
    (h' : g.Linear other) : order = other ∨ List.Lex (· < ·) order other := by
  obtain ⟨all, rfl⟩ := order_eq_ok.1 h
  have least := c.peel_sound.greedy.least h'.orders (by rw [all, List.length_reverse, h'.length])
  rwa [List.reverse_reverse, List.reverse_eq_iff.symm] at least

theorem Coherent.order_iff_acyclic (c : g.Coherent) :
    (∃ order, g.order = .ok order) ↔ g.Acyclic := by
  constructor
  · rintro ⟨order, h⟩
    exact (c.linear_of_order h).acyclic
  · intro acyclic
    refine ⟨_, order_eq_ok.2 ⟨c.peel_complete.elim id fun stuck => ?_, rfl⟩⟩
    rw [c.peel_sound.greedy.orders.complete_iff]
    intro v lt
    by_contra left
    obtain ⟨w, ready⟩ := exists_ready lt left fun v path _ => acyclic v path
    exact stuck w ready

theorem Coherent.order_iff_least (c : g.Coherent) : g.order = .ok order ↔
    g.Linear order ∧ ∀ other, g.Linear other → order = other ∨ List.Lex (· < ·) order other := by
  constructor
  · exact fun ok => ⟨c.linear_of_order ok, fun other => c.order_least ok⟩
  · rintro ⟨linear, least⟩
    obtain ⟨first, ok⟩ := c.order_iff_acyclic.2 linear.acyclic
    rcases c.order_least ok linear with rfl | less
    · exact ok
    · rcases least first (c.linear_of_order ok) with rfl | greater
      · exact ok
      · exact absurd greater (asymm less)

theorem Coherent.order_congr {g' : Digraph} (c : g.Coherent) (c' : g'.Coherent)
    (same : ∀ vs, g.Linear vs ↔ g'.Linear vs) : g.order.toOption = g'.order.toOption := by
  have agree : ∀ vs, g.order = .ok vs ↔ g'.order = .ok vs := by
    intro vs
    rw [c.order_iff_least, c'.order_iff_least]
    simp only [same]
  cases ok : g.order with
  | ok vs => rw [(agree vs).1 ok]
  | error left =>
    cases ok' : g'.order with
    | ok vs => cases ok.symm.trans ((agree vs).2 ok')
    | error left' => rfl

end Order

end Digraph

end Arbiter
