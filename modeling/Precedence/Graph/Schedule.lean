import Precedence.Graph.Basic
import Precedence.Graph.Rejection

/-!
From a schedule, a list of all units with predecessors first, to the order of instruction
positions. Debug values are not units: each goes right behind the instruction it followed, and
those that open the region stay in front.
-/
namespace Precedence.Graph

/-- The first edge of a list whose predecessor is not among `placed`. -/
def firstMissing (g : Graph) (placed : List Nat) : List Dep → Except Fault (Option NodeId)
  | [] => .ok none
  | d :: deps =>
      match d.node with
      | .exit => .error .exitHasNoIndex
      | .unit i =>
          if i < g.nodes.size then
            if placed.contains i then firstMissing g placed deps else .ok (some d.node)
          else .error .indexOutOfBounds

/-- Puts one more unit behind those of `placed`. -/
def place (g : Graph) (placed : List Nat) (id : NodeId) : Except Failure (List Nat) :=
  match id with
  | .exit => .error (.rejected (.invalidSchedule (.notAUnit id)))
  | .unit i =>
      match g.nodes[i]? with
      | none => .error (.rejected (.invalidSchedule (.notAUnit id)))
      | some n => do
          if placed.contains i then
            throw (.rejected (.invalidSchedule (.repeated id)))
          match ← Fault.lift (g.firstMissing placed n.preds) with
          | some pred => throw (.rejected (.invalidSchedule (.beforePredecessor id pred)))
          | none => return i :: placed

/-- The debug values that a position anchors. -/
def anchoredAt (anchored : List (Nat × Nat)) (pos : Nat) : List Nat :=
  (anchored.filter fun p => p.2 == pos).map Prod.fst

/-- The pairs that some other position anchors. -/
def anchoredElsewhere (anchored : List (Nat × Nat)) (pos : Nat) : List (Nat × Nat) :=
  anchored.filter fun p => p.2 != pos

/-- A position, then the debug values it anchors in order, each followed by those it anchors in
turn. A position's own anchors are used up by it. -/
def withDebug (anchored : List (Nat × Nat)) (pos : Nat) : List Nat :=
  if _h : (anchoredElsewhere anchored pos).length < anchored.length then
    pos :: (anchoredAt anchored pos).flatMap (withDebug (anchoredElsewhere anchored pos))
  else [pos]
termination_by anchored.length

/-- The instruction order of a schedule. Room is made beforehand for one position of eight bytes for
each position of the region. -/
def emitOrder (g : Graph) (schedule : List NodeId) : Except Failure (List Nat) := do
  if schedule.length ≠ g.nodes.size then
    throw (.rejected (.invalidSchedule (.wrongLength schedule.length g.nodes.size)))
  let _ ← schedule.foldlM g.place []
  let size ← Fault.lift (subCount g.stop g.start)
  Fault.lift (checkRoom size 8)
  let positions := schedule.filterMap fun id =>
    match id with
    | .exit => none
    | .unit i => g.nodes[i]?.bind Node.instr
  return (g.openingDebug.toList ++ positions).flatMap (withDebug g.debugValues)

end Precedence.Graph
