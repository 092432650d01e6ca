import Arbiter.Metrics.Exposition
import Arbiter.Proofs.Text

/-!
Exposition text read back. What stands before a value is told by its place in the text, whatever the
stem is made of, and a value ends where its line does. So the text tells all the snapshots it was
written for.
-/

namespace Arbiter

theorem Counters.toList_injective : Function.Injective Counters.toList := by
  rintro ⟨⟩ ⟨⟩ h
  simpa [toList] using h

namespace Exposition

variable {stem : String} {m m' : Metric} {ms ms' : List Metric} {s s' : Snapshot}
  {rest rest' : List Char}

structure Matches (m m' : Metric) : Prop where
  kind : m.kind = m'.kind
  name : m.name = m'.name

def heading (stem : String) (m : Metric) : List Char :=
  ("# TYPE " ++ fullName stem m.name ++ " " ++ m.kind.name ++ "\n" ++ fullName stem m.name ++
    " ").toList

def text (stem : String) (ms : List Metric) : List Char :=
  ms.flatMap fun m => (m.render stem).toList

section Metric

theorem toList_render (stem : String) (m : Metric) :
    (m.render stem).toList = heading stem m ++ (Nat.toDigits 10 m.value ++ ['\n']) := by
  -- To state the equation of `render` takes long, for the literals in it.
  delta Metric.render heading
  simp only [String.toList_append, Nat.toString_eq_repr, Nat.toList_repr, List.append_assoc]
  rfl

theorem toList_render_ne_nil (stem : String) (m : Metric) : (m.render stem).toList ≠ [] := by
  rw [toList_render]
  simp

theorem text_cons (stem : String) (m : Metric) (ms : List Metric) :
    text stem (m :: ms) = (m.render stem).toList ++ text stem ms := List.flatMap_cons

theorem Matches.eq_of_value (h : Matches m m') (value : m.value = m'.value) : m = m' := by
  cases m
  cases m'
  exact congr (congrArg₂ Metric.mk h.kind h.name) value

theorem Matches.heading_eq (h : Matches m m') : heading stem m = heading stem m' := by
  rw [heading, heading, h.kind, h.name]

theorem Matches.render_inj (h : Matches m m')
    (same : (m.render stem).toList ++ rest = (m'.render stem).toList ++ rest') :
    m = m' ∧ rest = rest' := by
  simp only [toList_render, h.heading_eq, List.append_assoc] at same
  obtain ⟨value, rests⟩ := toDigits_append_inj (by decide) (List.append_cancel_left same)
  exact ⟨h.eq_of_value value, rests⟩

theorem text_inj (h : List.Forall₂ Matches ms ms')
    (same : text stem ms ++ rest = text stem ms' ++ rest') : ms = ms' ∧ rest = rest' := by
  induction h with
  | nil => exact ⟨rfl, same⟩
  | cons first _ ih =>
    rw [text_cons, text_cons, List.append_assoc, List.append_assoc] at same
    obtain ⟨rfl, later⟩ := first.render_inj same
    obtain ⟨rfl, rests⟩ := ih later
    exact ⟨rfl, rests⟩

end Metric

section Snapshot

theorem matches_metrics (s s' : Snapshot) : List.Forall₂ Matches (metrics s) (metrics s') := by
  repeat' first | exact .nil | refine .cons ⟨rfl, rfl⟩ ?_

theorem map_value_metrics (s : Snapshot) : (metrics s).map Metric.value =
    s.counters.toList.map UInt64.toNat ++ [s.length, s.capacity] := rfl

theorem metrics_injective : Function.Injective metrics := by
  intro s s' h
  have values := congrArg (List.map Metric.value) h
  rw [map_value_metrics, map_value_metrics] at values
  obtain ⟨counters, gauges⟩ := List.append_inj values rfl
  have counters := List.map_injective_iff.2 (fun _ _ => UInt64.toNat_inj.1) counters
  obtain ⟨length, capacity⟩ : s.length = s'.length ∧ s.capacity = s'.capacity := by
    simpa using gauges
  cases s
  cases s'
  exact congr (congrArg₂ Snapshot.mk (Counters.toList_injective counters) length) capacity

theorem toList_render_cons (stem : String) (s : Snapshot) (xs : List Snapshot) :
    (render stem (s :: xs)).toList = text stem (metrics s) ++ (render stem xs).toList := by
  simp only [render, String.toList_join, List.flatMap_cons, List.map_append, List.flatMap_append,
    List.flatMap_map, text]

theorem render_cons_ne_nil (stem : String) (s : Snapshot) (xs : List Snapshot) :
    (render stem (s :: xs)).toList ≠ [] := by
  obtain ⟨m, ms, is⟩ : ∃ m ms, metrics s = m :: ms := ⟨_, _, rfl⟩
  rw [toList_render_cons, is, text_cons, List.append_assoc]
  exact List.append_ne_nil_of_left_ne_nil (toList_render_ne_nil stem m) _

end Snapshot

/-- Whatever the names begin with, two lists of snapshots have the same text only if they are the
same. -/
theorem render_injective (stem : String) : Function.Injective (render stem) := by
  intro xs ys same
  rw [← String.toList_inj] at same
  induction xs generalizing ys with
  | nil =>
    cases ys with
    | nil => rfl
    | cons s ys => exact absurd same.symm (render_cons_ne_nil stem s ys)
  | cons s xs ih =>
    cases ys with
    | nil => exact absurd same (render_cons_ne_nil stem s xs)
    | cons s' ys =>
      rw [toList_render_cons, toList_render_cons] at same
      obtain ⟨first, rest⟩ := text_inj (matches_metrics s s') same
      rw [metrics_injective first, ih rest]

end Exposition

end Arbiter
