import Precedence.Graph.Order

/-!
The structural check of a graph: every edge ends at a node, has its counterpart at the other end,
and the units can be put in order. Flaws of single edges are reported before cycles, in the order
in which the nodes hold them.
-/
namespace Precedence.Graph

def hasNode (g : Graph) : NodeId → Bool
  | .exit => true
  | .unit i => i < g.nodes.size

/-- What is wrong with `d` as a predecessor edge of `id`. -/
def predFlaw? (g : Graph) (id : NodeId) (d : Dep) : Option Rejection :=
  if !g.hasNode d.node then some (.danglingEdge d.node)
  else if (g.succsOf d.node).any fun e => e.sameConstraint (d.facing id) then none
  else some (.asymmetricEdge d.node id)

/-- What is wrong with `d` as a successor edge of `id`. -/
def succFlaw? (g : Graph) (id : NodeId) (d : Dep) : Option Rejection :=
  if !g.hasNode d.node then some (.danglingEdge d.node)
  else if (g.predsOf d.node).any fun e => e.sameConstraint (d.facing id) then none
  else some (.asymmetricEdge id d.node)

/-- The first flaw among the edges of one node. -/
def nodeFlaw? (g : Graph) (id : NodeId) (n : Node) : Option Rejection :=
  (n.preds.findSome? (g.predFlaw? id)).or (n.succs.findSome? (g.succFlaw? id))

/-- The first flaw of any edge. -/
def edgeFlaw? (g : Graph) : Option Rejection :=
  g.entries.findSome? fun (id, n) => g.nodeFlaw? id n

def verify (g : Graph) : Except Failure Unit :=
  match g.edgeFlaw? with
  | some flaw => .error (.rejected flaw)
  | none => do
      let _ ← g.topologicalOrder
      return ()

end Precedence.Graph
