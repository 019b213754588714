import Mathlib.Data.List.Induction
import Precedence.Graph.Schedule
import Precedence.Proofs.Graph.Edges

/-!
Units that are placed one after the other. None stands in front of a predecessor, so no path leads from
a unit to an earlier one.
-/
namespace Precedence.Graph

theorem lift_eq_ok {α : Type} {x : Except Fault α} {a : α} : Fault.lift x = .ok a ↔ x = .ok a := by
  cases x <;> simp [Fault.lift, Except.mapError]

/-! Units in order -/

/-- No one waits for a node that stands in front. -/
def InOrder (g : Graph) (l : List Nat) : Prop :=
  ∀ front i back, l = front ++ i :: back →
    ∀ d ∈ g.predsOf (.unit i), ∃ k ∈ front, d.node = .unit k

theorem InOrder.nil {g : Graph} : g.InOrder [] := by
  intro front i back heq
  simp at heq

theorem InOrder.left {g : Graph} {l l' : List Nat} (h : g.InOrder (l ++ l')) : g.InOrder l :=
  fun front i back heq => h front i (back ++ l') (by simp [heq])

theorem InOrder.concat {g : Graph} {l : List Nat} {i : Nat} (h : g.InOrder l)
    (hi : ∀ d ∈ g.predsOf (.unit i), ∃ k ∈ l, d.node = .unit k) : g.InOrder (l ++ [i]) := by
  intro front j back heq
  rcases List.eq_nil_or_concat back with rfl | ⟨back, last, rfl⟩
  · obtain ⟨rfl, hij⟩ := List.append_inj' heq rfl
    obtain rfl : i = j := by simpa using hij
    exact hi
  · rw [List.concat_eq_append, ← List.cons_append, ← List.append_assoc] at heq
    exact h front j back (List.append_inj' heq rfl).1

/-- Units in order have in front of them whatever leads to them. -/
theorem InOrder.mem_of_path {g : Graph} (hl : g.Linked) {l : List Nat} (h : g.InOrder l) {i c : Nat}
    (hi : i ∈ l) (hp : g.Path (.unit c) (.unit i)) : c ∈ l := by
  generalize hn : NodeId.unit i = n at hp
  induction hp generalizing i with
  | refl =>
    cases hn
    exact hi
  | tail _ hjoins ih =>
    subst hn
    obtain ⟨d, hd, rfl⟩ := hl.joins_iff.mp hjoins
    obtain ⟨front, back, rfl⟩ := List.append_of_mem hi
    obtain ⟨k, hk, hnode⟩ := h front i back rfl d hd
    exact ih (List.mem_append_left _ hk) hnode.symm

/-- No path leads from a unit to an earlier one. -/
theorem InOrder.pairwise {g : Graph} (hl : g.Linked) {l : List Nat} (h : g.InOrder l)
    (hnodup : l.Nodup) : l.Pairwise fun a b => ¬g.Path (.unit b) (.unit a) := by
  induction l using List.reverseRecOn with
  | nil => exact .nil
  | append_singleton l i ih =>
    obtain ⟨hl', -, hnew⟩ := List.nodup_append.mp hnodup
    refine List.pairwise_append.mpr ⟨ih h.left hl', List.pairwise_singleton .., ?_⟩
    intro a ha b hb hp
    obtain rfl := List.mem_singleton.mp hb
    exact hnew b (h.left.mem_of_path hl ha hp) b hb rfl

/-! Placing units -/

theorem firstMissing_none {g : Graph} {placed : List Nat} {deps : List Dep}
    (h : g.firstMissing placed deps = .ok none) :
    ∀ d ∈ deps, ∃ k ∈ placed, d.node = .unit k := by
  induction deps with
  | nil => simp
  | cons d deps ih =>
    unfold firstMissing at h
    split at h
    · cases h
    next k hk =>
      split at h
      · split at h
        next hmem =>
          intro e he
          rcases List.mem_cons.mp he with rfl | he
          · exact ⟨k, by simpa using hmem, hk⟩
          · exact ih h e he
        next => cases h
      · cases h

theorem place_ok {g : Graph} {placed placed' : List Nat} {id : NodeId}
    (h : g.place placed id = .ok placed') :
    ∃ i, id = .unit i ∧ placed' = i :: placed ∧ i < g.nodes.size ∧ i ∉ placed ∧
      ∀ d ∈ g.predsOf (.unit i), ∃ k ∈ placed, d.node = .unit k := by
  unfold place at h
  split at h
  · cases h
  next i =>
    split at h
    · cases h
    next n hn =>
      split at h
      · simp [bind_eq_ok, throw_eq_ok] at h
      next hnew =>
        obtain ⟨missing, hmissing, h⟩ := bind_eq_ok.mp h
        cases missing with
        | some pred => cases h
        | none =>
          cases h
          rw [lift_eq_ok] at hmissing
          obtain ⟨hi, rfl⟩ := Array.getElem?_eq_some_iff.mp hn
          refine ⟨i, rfl, rfl, hi, by simpa using hnew, ?_⟩
          simpa [predsOf, hi] using firstMissing_none hmissing

/-- Units that have been placed one after the other are in order. -/
theorem inOrder_of_foldlM_place {g : Graph} {front placed placed' : List Nat}
    {schedule : List NodeId} (hfront : g.InOrder front) (hnodup : front.Nodup)
    (hlt : ∀ i ∈ front, i < g.nodes.size) (hplaced : ∀ k, k ∈ placed ↔ k ∈ front)
    (h : schedule.foldlM g.place placed = .ok placed') :
    ∃ l : List Nat, schedule = l.map .unit ∧ g.InOrder (front ++ l) ∧ (front ++ l).Nodup ∧
      ∀ i ∈ front ++ l, i < g.nodes.size := by
  induction schedule generalizing front placed with
  | nil => exact ⟨[], rfl, by simpa using hfront, by simpa using hnodup, by simpa using hlt⟩
  | cons id schedule ih =>
    rw [List.foldlM_cons, bind_eq_ok] at h
    obtain ⟨placed₁, h₁, h⟩ := h
    obtain ⟨i, rfl, rfl, hi, hnew, hpreds⟩ := place_ok h₁
    have hfront' : g.InOrder (front ++ [i]) := hfront.concat fun d hd => by
      obtain ⟨k, hk, hnode⟩ := hpreds d hd
      exact ⟨k, (hplaced k).mp hk, hnode⟩
    have hnodup' : (front ++ [i]).Nodup := by
      rw [← List.concat_eq_append]
      exact List.Nodup.concat (mt (hplaced i).mpr hnew) hnodup
    have hlt' : ∀ j ∈ front ++ [i], j < g.nodes.size := by
      simpa [or_imp, forall_and, hi] using hlt
    obtain ⟨l, rfl, horder, hl⟩ := ih hfront' hnodup' hlt' (by simp [hplaced, or_comm]) h
    refine ⟨i :: l, rfl, ?_, ?_⟩
    · rwa [List.append_cons]
    · rwa [List.append_cons]

end Precedence.Graph
