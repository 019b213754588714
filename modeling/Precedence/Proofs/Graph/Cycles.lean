import Mathlib
import Precedence.Proofs.Graph.Additions

/-!
Cycles of a graph that is put together edge by edge. A node that can be traced back for ever lies on a
cycle or behind one, since there are only so many units, and the units in front of the first such node
are all in order. So whether there is a topological order says whether there is a cycle; but the unit
that is reported may do no more than wait for one.
-/
namespace Precedence.Graph

variable {g : Graph} {n : NodeId}

/-! What lies behind cycles -/

/-- A path of at least one edge leads from the node back to it. -/
def OnCycle (g : Graph) (n : NodeId) : Prop := Relation.TransGen g.Joins n n

/-- No unit lies on a cycle. -/
def Acyclic (g : Graph) : Prop := ∀ i, ¬g.OnCycle (.unit i)

/-- A path, which may be empty, leads to the node from one that lies on a cycle. -/
def BehindCycle (g : Graph) (n : NodeId) : Prop := ∃ k, g.OnCycle k ∧ g.Path k n

theorem OnCycle.behindCycle (h : g.OnCycle n) : g.BehindCycle n := ⟨n, h, .refl⟩

theorem BehindCycle.step {s : NodeId} (h : g.BehindCycle n) (hs : g.Joins n s) : g.BehindCycle s := by
  obtain ⟨k, hk, hpath⟩ := h
  exact ⟨k, hk, hpath.tail hs⟩

/-- What lies behind a cycle waits for something behind a cycle. -/
theorem BehindCycle.exists_joins (h : g.BehindCycle n) : ∃ p, g.Joins p n ∧ g.BehindCycle p := by
  obtain ⟨k, hk, hpath⟩ := h
  rcases hpath.cases_tail with rfl | ⟨p, hp, hjoins⟩
  · obtain ⟨p, hp, hjoins⟩ := Relation.TransGen.tail'_iff.mp hk
    exact ⟨p, hjoins, _, hk, hp⟩
  · exact ⟨p, hjoins, k, hk, hp⟩

/-- A unit can be traced back for ever exactly if it lies on a cycle or behind one. -/
theorem Linked.acc_iff (hl : g.Linked) {i : Nat} (hi : i < g.nodes.size) :
    Acc g.Joins (.unit i) ↔ ¬g.BehindCycle (.unit i) := by
  constructor
  · intro hacc
    generalize NodeId.unit i = n at hacc
    induction hacc with
    | intro n _ ih =>
      intro h
      obtain ⟨p, hp, hbehind⟩ := h.exists_joins
      exact ih p hp hbehind
  · -- without what lies behind cycles, the units are finitely many and their edges form no cycle
    let clear (a b : Fin g.nodes.size) : Prop := g.Joins (.unit a) (.unit b) ∧ ¬g.BehindCycle (.unit b)
    have hirrefl : Std.Irrefl (Relation.TransGen clear) := by
      refine ⟨fun a ha => ?_⟩
      obtain ⟨_, -, -, hclear⟩ := Relation.TransGen.tail'_iff.mp ha
      have hjoins : clear ≤ Function.onFun g.Joins fun a : Fin _ => .unit a := fun _ _ hab => hab.1
      have hcycle : g.OnCycle (.unit a) := Relation.TransGen.lift _ hjoins a a ha
      exact hclear hcycle.behindCycle
    have hwf : WellFounded clear :=
      Subrelation.wf .single (Finite.wellFounded_of_trans_of_irrefl (Relation.TransGen clear))
    suffices hall : ∀ a : Fin g.nodes.size, ¬g.BehindCycle (.unit a) → Acc g.Joins (.unit a) from
      hall ⟨i, hi⟩
    intro a
    induction a using hwf.induction with
    | _ a ih =>
      refine fun ha => Acc.intro _ fun p hp => ?_
      obtain ⟨k, hk, rfl⟩ := hl.exists_of_joins hp
      exact ih ⟨k, hk⟩ ⟨hp, ha⟩ fun hbehind => ha (hbehind.step hp)

theorem Linked.lt_of_behindCycle (hl : g.Linked) {i : Nat} (h : g.BehindCycle (.unit i)) :
    i < g.nodes.size := by
  obtain ⟨p, ⟨kind, reg, hedge⟩, -⟩ := h.exists_joins
  exact position_unit_isSome.mp (hl.present _ _ _ _ hedge)

theorem Linked.not_acyclic (hl : g.Linked) (h : g.BehindCycle n) : ¬g.Acyclic := by
  obtain ⟨k, hk, -⟩ := h
  obtain ⟨_, hjoins, -⟩ := Relation.TransGen.head'_iff.mp hk
  obtain ⟨i, -, rfl⟩ := hl.exists_of_joins hjoins
  exact fun hacyclic => hacyclic i hk

/-- Either there is an order that keeps to the edges and ends with the exit, or a unit lies behind a
cycle and the first such unit is reported. -/
theorem order_or_cycle (hl : g.Linked) (hd : g.Distinct) :
    (∃ schedule, g.topologicalOrder = .ok (schedule ++ [.exit]) ∧ g.Admits schedule ∧ g.Acyclic) ∨
    ∃ i, g.topologicalOrder = .error (.rejected (.cycle (.unit i))) ∧
      IsLeast {i | g.BehindCycle (.unit i)} i := by
  rcases topologicalOrder_cases hl hd with ⟨l, horder, hperm, hinorder⟩ |
    ⟨i, hi, herror, hnot, hfirst⟩
  · refine .inl ⟨_, horder, admits_iff.mpr ⟨l, rfl, hperm, hinorder⟩, fun i hcycle => ?_⟩
    have hi := hl.lt_of_behindCycle hcycle.behindCycle
    have hmem : i ∈ l := hperm.mem_iff.mpr (List.mem_range.mpr hi)
    exact (hl.acc_iff hi).mp (hinorder.acc hl i hmem) hcycle.behindCycle
  · refine .inr ⟨i, herror, ?_, fun j hj => ?_⟩
    · by_contra h
      exact hnot ((hl.acc_iff hi).mpr h)
    · by_contra hji
      rw [not_le] at hji
      exact (hl.acc_iff (hji.trans hi)).mp (hfirst j hji) hj

/-! Graphs that are put together -/

variable {answers : List Bool} {calls : List Request} {block : BlockId} {start stop : Nat}
  {positions : List Nat}

theorem stored_of_addDeps
    (h : (ofPositions block start stop positions).addDeps calls = .ok (g, answers)) :
    g.Linked ∧ g.Distinct :=
  have hgrows := grows_addDeps h
  ⟨hgrows.linked linked_ofPositions, (hgrows.mirrored mirrored_ofPositions).distinct⟩

/-- The search for an order decides whether there are cycles: whatever edges have been added, it gives
an answer, it finds an order exactly if no unit lies on a cycle, and then the order has every unit
once, each one behind everything with an edge to it, and the exit at the end. -/
theorem topologicalOrder_iff_acyclic
    (h : (ofPositions block start stop positions).addDeps calls = .ok (g, answers)) :
    (∀ f, g.topologicalOrder ≠ .error (.fault f)) ∧
    ((∃ order, g.topologicalOrder = .ok order) ↔ g.Acyclic) ∧
    ∀ order, g.topologicalOrder = .ok order →
      ∃ schedule, order = schedule ++ [.exit] ∧ g.Admits schedule := by
  obtain ⟨hl, hm⟩ := stored_of_addDeps h
  rcases order_or_cycle hl hm with ⟨schedule, horder, hadmits, hacyclic⟩ |
    ⟨i, herror, hbehind, -⟩
  · rw [horder]
    refine ⟨nofun, ⟨fun _ => hacyclic, fun _ => ⟨_, rfl⟩⟩, ?_⟩
    rintro _ ⟨⟩
    exact ⟨schedule, rfl, hadmits⟩
  · rw [herror]
    exact ⟨nofun, ⟨nofun, fun hacyclic => absurd hacyclic (hl.not_acyclic hbehind)⟩, nofun⟩

/-- Two edges between the same units, one edge backward in number and one to the exit: still there is an
order. -/
theorem topologicalOrder_of_parallel_edges :
    let calls : List Request := [⟨.unit 0, .data (.unit 1) 3 ⟨1⟩ none none⟩,
      ⟨.unit 0, .artificial (.unit 1)⟩, ⟨.exit, .artificial (.unit 0)⟩]
    ∃ g answers schedule, (ofPositions ⟨0⟩ 0 2 [0, 1]).addDeps calls = .ok (g, answers) ∧
      g.topologicalOrder = .ok (schedule ++ [.exit]) ∧ g.Admits schedule ∧ g.Acyclic := by
  intro calls
  have hcalls : ((ofPositions ⟨0⟩ 0 2 [0, 1]).addDeps calls).map
      (fun built => decide (built.1.topologicalOrder.isOk)) = .ok true := by cbv
  obtain ⟨⟨g, answers⟩, h, hok⟩ := exists_of_map_decide hcalls
  obtain ⟨order, horder⟩ := exists_of_isOk hok
  obtain ⟨-, hiff, hadmits⟩ := topologicalOrder_iff_acyclic h
  obtain ⟨schedule, rfl, hschedule⟩ := hadmits order horder
  exact ⟨g, answers, schedule, h, horder, hschedule, hiff.mp ⟨_, horder⟩⟩

/-- The unit that is reported when there is no order is the first one on a cycle or behind one, in the
search for an order as in the structural check. -/
theorem cycle_iff_first_behind
    (h : (ofPositions block start stop positions).addDeps calls = .ok (g, answers)) (n : NodeId) :
    (g.topologicalOrder = .error (.rejected (.cycle n)) ↔
      ∃ i, n = .unit i ∧ IsLeast {i | g.BehindCycle (.unit i)} i) ∧
    (g.verify = .error (.rejected (.cycle n)) ↔
      ∃ i, n = .unit i ∧ IsLeast {i | g.BehindCycle (.unit i)} i) := by
  obtain ⟨hl, hm⟩ := stored_of_addDeps h
  rw [verify_eq hl]
  rcases order_or_cycle hl hm with ⟨schedule, horder, -, hacyclic⟩ | ⟨i, herror, hleast⟩
  · have hnone : ¬∃ i, n = .unit i ∧ IsLeast {i | g.BehindCycle (.unit i)} i := by
      rintro ⟨i, -, hbehind, -⟩
      exact hl.not_acyclic hbehind hacyclic
    rw [horder]
    exact ⟨⟨nofun, fun h => absurd h hnone⟩, ⟨nofun, fun h => absurd h hnone⟩⟩
  · have hfirst : NodeId.unit i = n ↔ ∃ i, n = .unit i ∧ IsLeast {i | g.BehindCycle (.unit i)} i := by
      constructor
      · rintro rfl
        exact ⟨i, rfl, hleast⟩
      · rintro ⟨j, rfl, hj⟩
        rw [hleast.unique hj]
    rw [herror, ← hfirst]
    simp [Except.map]

/-- Of two units that wait for each other the first one is reported. -/
theorem cycle_of_mutual_edges :
    let calls : List Request := [⟨.unit 0, .artificial (.unit 1)⟩, ⟨.unit 1, .artificial (.unit 0)⟩]
    ∃ g answers, (ofPositions ⟨0⟩ 0 2 [0, 1]).addDeps calls = .ok (g, answers) ∧
      g.topologicalOrder = .error (.rejected (.cycle (.unit 0))) ∧
      g.verify = .error (.rejected (.cycle (.unit 0))) ∧ IsLeast {i | g.BehindCycle (.unit i)} 0 := by
  intro calls
  have hcalls : ((ofPositions ⟨0⟩ 0 2 [0, 1]).addDeps calls).map
      (fun built => decide (built.1.topologicalOrder = .error (.rejected (.cycle (.unit 0))))) =
        .ok true := by cbv
  obtain ⟨⟨g, answers⟩, h, horder⟩ := exists_of_map_decide hcalls
  obtain ⟨hfound, hchecked⟩ := cycle_iff_first_behind h (.unit 0)
  have hfirst := hfound.mp horder
  refine ⟨g, answers, h, horder, hchecked.mpr hfirst, ?_⟩
  obtain ⟨i, hi, hleast⟩ := hfirst
  cases hi
  exact hleast

/-- A unit that only waits for a cycle is reported all the same. -/
theorem not_onCycle_of_reported :
    let calls : List Request := [⟨.unit 2, .order (.unit 1) 0⟩,
      ⟨.unit 1, .order (.unit 2) 0⟩, ⟨.unit 0, .order (.unit 1) 0⟩]
    ∃ g answers, (ofPositions ⟨0⟩ 0 3 [0, 1, 2]).addDeps calls = .ok (g, answers) ∧
      g.topologicalOrder = .error (.rejected (.cycle (.unit 0))) ∧
      g.verify = .error (.rejected (.cycle (.unit 0))) ∧ ¬g.OnCycle (.unit 0) := by
  intro calls
  have hcalls : ((ofPositions ⟨0⟩ 0 3 [0, 1, 2]).addDeps calls).map
      (fun built => decide (built.1.topologicalOrder = .error (.rejected (.cycle (.unit 0))) ∧
        built.1.verify = .error (.rejected (.cycle (.unit 0))) ∧
        built.1.outgoing (.unit 0) = [])) = .ok true := by cbv
  obtain ⟨⟨g, answers⟩, h, horder, hverify, hout⟩ := exists_of_map_decide hcalls
  refine ⟨g, answers, h, horder, hverify, fun hcycle => ?_⟩
  -- no edge leaves the unit that is reported
  obtain ⟨_, ⟨kind, reg, hedge⟩, -⟩ := Relation.TransGen.head'_iff.mp hcycle
  rw [HasEdge, hout] at hedge
  exact List.not_mem_nil hedge

end Precedence.Graph
