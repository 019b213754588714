import Precedence.Graph.Basic
import Precedence.Graph.Rejection

/-!
Topological order, by taking units whose predecessors have all been taken, first come, first
served. Each unit becomes ready once, so one round per unit is enough; what is left over then
lies behind a cycle.
-/
namespace Precedence.Graph

/-- The units ready to be taken, in the order they became so, and for every unit the number of its
predecessor edges that still hold it back. -/
structure Readiness where
  ready : List Nat
  waiting : Array Nat

/-- One edge out of a taken unit no longer holds back the node at its other end. -/
def Readiness.release (r : Readiness) (d : Dep) : Except Fault Readiness :=
  match d.node with
  | .exit => .ok r
  | .unit i =>
      match r.waiting[i]? with
      | none => .error .indexOutOfBounds
      | some 0 => .error .arithmeticOverflow
      | some 1 => .ok { ready := r.ready ++ [i], waiting := r.waiting.set! i 0 }
      | some (k + 2) => .ok { r with waiting := r.waiting.set! i (k + 1) }

/-- Takes up to `rounds` units, each the one that has been ready longest. -/
def takeReady (g : Graph) : (rounds : Nat) → Readiness → Except Fault (List Nat × Readiness)
  | 0, r => .ok ([], r)
  | rounds + 1, r =>
      match r.ready with
      | [] => .ok ([], r)
      | i :: later => do
          let n ← g.node (.unit i)
          let r ← n.succs.foldlM Readiness.release { r with ready := later }
          let (taken, r) ← takeReady g rounds r
          return (i :: taken, r)

/-- The units without predecessors are ready at the start. -/
def readiness (g : Graph) : Readiness where
  ready := (List.range g.nodes.size).filter fun i => (g.predsOf (.unit i)).isEmpty
  waiting := g.nodes.map fun n => n.preds.length

/-- The first unit that some edge holds back, or the exit when there is none. -/
def Readiness.stuck (r : Readiness) : NodeId :=
  match r.waiting.toList.findIdx? fun k => 0 < k with
  | some i => .unit i
  | none => .exit

/-- All units, each after its predecessors, and the exit last. -/
def topologicalOrder (g : Graph) : Except Failure (List NodeId) := do
  let (taken, r) ← Fault.lift (g.takeReady g.nodes.size g.readiness)
  if taken.length = g.nodes.size then
    return taken.map NodeId.unit ++ [.exit]
  else
    throw (.rejected (.cycle r.stuck))

end Precedence.Graph
