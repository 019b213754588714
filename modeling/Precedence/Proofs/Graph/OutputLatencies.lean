import Precedence.Proofs.Graph.Kept

/-!
A graph whose output edges do not say how long they wait. The latency of an edge that is added is
compared with that of an edge of the same kind, and with nothing else. So all other edges come about
as if no output edge had a latency.
-/
namespace Precedence

/-- The edge, with no latency if it is an output edge. -/
def Dep.withoutOutputLatency (d : Dep) : Dep :=
  if d.kind = .output then { d with latency := 0 } else d

def Node.withoutOutputLatencies (n : Node) : Node :=
  { n with
    preds := n.preds.map Dep.withoutOutputLatency
    succs := n.succs.map Dep.withoutOutputLatency }

/-- The graph with no latencies on its output edges. -/
def Graph.withoutOutputLatencies (g : Graph) : Graph := g.mapNodes Node.withoutOutputLatencies

namespace Dep

variable {d e : Dep} {deps : List Dep} {n : NodeId}

theorem withoutOutputLatency_of_ne (h : d.kind ≠ .output) : d.withoutOutputLatency = d := if_neg h

theorem withoutOutputLatency_of_output (h : d.kind = .output) :
    d.withoutOutputLatency = { d with latency := 0 } := if_pos h

theorem constraint_withoutOutputLatency : d.withoutOutputLatency.constraint = d.constraint := by
  unfold withoutOutputLatency
  split <;> rfl

@[simp] theorem node_withoutOutputLatency : d.withoutOutputLatency.node = d.node :=
  congrArg Prod.fst constraint_withoutOutputLatency

@[simp] theorem kind_withoutOutputLatency : d.withoutOutputLatency.kind = d.kind :=
  congrArg (fun c => c.2.1) constraint_withoutOutputLatency

theorem sameConstraint_withoutOutputLatency :
    d.withoutOutputLatency.sameConstraint e.withoutOutputLatency = d.sameConstraint e := by
  rw [Bool.eq_iff_iff, sameConstraint_iff, sameConstraint_iff, constraint_withoutOutputLatency,
    constraint_withoutOutputLatency]

theorem facing_withoutOutputLatency :
    d.withoutOutputLatency.facing n = (d.facing n).withoutOutputLatency := by
  by_cases h : d.kind = .output <;> simp [withoutOutputLatency, facing, h]

theorem find?_withoutOutputLatency :
    (deps.map withoutOutputLatency).find? (fun e => e.sameConstraint d.withoutOutputLatency) =
      (deps.find? fun e => e.sameConstraint d).map withoutOutputLatency := by
  simp only [List.find?_map, Function.comp_def, sameConstraint_withoutOutputLatency]

theorem map_relabel_of_ne (h : d.kind ≠ .output) :
    (d.relabel deps).map withoutOutputLatency =
      d.relabel (deps.map withoutOutputLatency) := by
  induction deps with
  | nil => rfl
  | cons e rest ih =>
    have hsees : e.withoutOutputLatency.sameConstraint d = e.sameConstraint d := by
      rw [← sameConstraint_withoutOutputLatency (d := e), withoutOutputLatency_of_ne h]
    simp only [relabel, List.map_cons, hsees]
    split
    next hsame =>
      have hkind : e.kind ≠ .output := kind_of_sameConstraint hsame ▸ h
      simp [withoutOutputLatency, hkind]
    next => rw [List.map_cons, ih]

/-- Of an output edge that is there already nothing is seen to change. -/
theorem map_relabel_of_output (h : d.kind = .output) :
    (d.relabel deps).map withoutOutputLatency = deps.map withoutOutputLatency := by
  induction deps with
  | nil => rfl
  | cons e rest ih =>
    simp only [relabel]
    split
    next hsame =>
      have hkind : e.kind = .output := (kind_of_sameConstraint hsame).trans h
      simp [withoutOutputLatency, hkind]
    next => rw [List.map_cons, ih, List.map_cons]

end Dep

namespace Graph

variable {g g' : Graph} {succ : NodeId} {dep : Dep}

theorem bare_withoutOutputLatencies : g.withoutOutputLatencies.bare = g.bare := mapNodes_mapNodes

/-- An edge is added as if no output edge had a latency. -/
theorem withoutOutputLatencies_withDep (h : g.withDep succ dep = .ok g') :
    g.withoutOutputLatencies.withDep succ dep.withoutOutputLatency =
      .ok g'.withoutOutputLatencies := by
  obtain ⟨hself, hexit, hsucc, h⟩ := withDep_eq_ok.mp h
  have hnode : dep.withoutOutputLatency.node = dep.node := Dep.node_withoutOutputLatency
  have hpreds : g.withoutOutputLatencies.predsOf succ =
      (g.predsOf succ).map Dep.withoutOutputLatency := predsOf_mapNodes (fun _ => rfl) rfl
  refine withDep_eq_ok.mpr
    ⟨hnode ▸ hself, hnode ▸ hexit, isSome_node?_mapNodes.trans hsucc, ?_⟩
  rw [hpreds, Dep.find?_withoutOutputLatency, hnode]
  split at h
  next old hold =>
    have hkind : old.kind = dep.kind :=
      Dep.kind_of_sameConstraint (by simpa using List.find?_some hold)
    rw [hold]
    by_cases hk : dep.kind = .output
    · -- both latencies are left out, so the view does not change
      have hview : g'.withoutOutputLatencies = g.withoutOutputLatencies := by
        split at h
        · exact mapNodes_modifyEnds
            (fun n => by simp [Node.withoutOutputLatencies, Dep.map_relabel_of_output hk])
            (fun n => by
              simp [Node.withoutOutputLatencies,
                Dep.map_relabel_of_output (d := dep.facing succ) hk]) h
        · rw [h]
      simp [Dep.withoutOutputLatency_of_output, hk, hkind, hview]
    · have hk' : old.kind ≠ .output := hkind ▸ hk
      simp only [Option.map_some, Dep.withoutOutputLatency_of_ne hk,
        Dep.withoutOutputLatency_of_ne hk']
      split at h
      next hlt =>
        rw [if_pos hlt]
        exact modifyEnds_mapNodes
          (fun n => by simp [Node.withoutOutputLatencies, Dep.map_relabel_of_ne hk])
          (fun n => by
            simp [Node.withoutOutputLatencies, Dep.map_relabel_of_ne (d := dep.facing succ) hk]) h
      next hle => rw [if_neg hle, h]
  next hnone =>
    rw [hnone]
    exact modifyEnds_mapNodes (fun n => by simp [Node.withoutOutputLatencies])
      (fun n => by
        simp [Node.withoutOutputLatencies, Dep.facing_withoutOutputLatency]) h

/-- A mark on a node does not depend on latencies either. -/
theorem withoutOutputLatencies_scheduleHigh {id : NodeId}
    (h : g.modifyNode id (fun n => { n with scheduleHigh := true }) = .ok g') :
    g.withoutOutputLatencies.modifyNode id (fun n => { n with scheduleHigh := true }) =
      .ok g'.withoutOutputLatencies :=
  modifyNode_mapNodes (fun _ => rfl) h

end Graph

end Precedence
