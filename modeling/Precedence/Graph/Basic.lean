import Precedence.Fault

/-!
Precedence graphs. Every edge is stored at both of its ends, and `Graph.addDep` keeps the two
entries alike: of the edges that state one constraint, only one is kept, with the greatest latency
asked for. Graphs may also be filled in by hand, so nothing here assumes that the ends agree.
-/
namespace Precedence

structure Graph where
  block : BlockId
  start : Nat
  stop : Nat
  nodes : Array Node := #[]
  exit : Node := {}
  /-- debug values, each with the position right before it -/
  debugValues : List (Nat × Nat) := []
  /-- a debug value that opens the region -/
  openingDebug : Option Nat := none
deriving DecidableEq

namespace Graph

/-- The nodes in order, the exit last. -/
def entries (g : Graph) : List (NodeId × Node) :=
  g.nodes.toList.zipIdx.map (fun (n, i) => (NodeId.unit i, n)) ++ [(NodeId.exit, g.exit)]

def node (g : Graph) : NodeId → Except Fault Node
  | .exit => .ok g.exit
  | .unit i =>
      match g.nodes[i]? with
      | some n => .ok n
      | none => .error .indexOutOfBounds

def modifyNode (g : Graph) (id : NodeId) (change : Node → Node) : Except Fault Graph :=
  match id with
  | .exit => .ok { g with exit := change g.exit }
  | .unit i =>
      if i < g.nodes.size then .ok { g with nodes := g.nodes.modify i change }
      else .error .indexOutOfBounds

/-- Appends a node for the instruction at `instr`. -/
def addNode (g : Graph) (instr : Nat) : Graph × NodeId :=
  ({ g with nodes := g.nodes.push { instr := some instr } }, .unit g.nodes.size)

/-- The instruction that a node wraps, when `b` has it. -/
def instr (g : Graph) (id : NodeId) (b : Block) : Except Fault (Option Instr) := do
  let n ← g.node id
  return n.instr.bind fun i => b.instrs[i]?

end Graph

/-- Sets the latency of the first edge that states the constraint of `d`. -/
def Dep.relabel (d : Dep) : List Dep → List Dep
  | [] => []
  | e :: rest =>
      if e.sameConstraint d then { e with latency := d.latency } :: rest else e :: d.relabel rest

namespace Graph

/-- Adds the edge from `dep.node` to `succ`, or raises the latency of the one that states the same
constraint. The answer tells whether the constraint is new. -/
def addDep (g : Graph) (succ : NodeId) (dep : Dep) : Except Fault (Graph × Bool) := do
  if dep.node = succ then
    throw (.selfDependence succ)
  if dep.node = .exit then
    throw .exitAsPredecessor
  let target ← g.node succ
  match target.preds.find? fun e => e.sameConstraint dep with
  | some old =>
      if old.latency < dep.latency then
        let g ← g.modifyNode succ fun n => { n with preds := dep.relabel n.preds }
        let g ← g.modifyNode dep.node fun n => { n with succs := (dep.facing succ).relabel n.succs }
        return (g, false)
      else
        return (g, false)
  | none =>
      let g ← g.modifyNode succ fun n => { n with preds := n.preds ++ [dep] }
      let g ← g.modifyNode dep.node fun n => { n with succs := n.succs ++ [dep.facing succ] }
      return (g, true)

/-- The graph after `addDep`. -/
def withDep (g : Graph) (succ : NodeId) (dep : Dep) : Except Fault Graph := do
  let (g, _) ← g.addDep succ dep
  return g

/-- Every edge as predecessor, successor and the successor's view of it. -/
def edges (g : Graph) : List (NodeId × NodeId × Dep) :=
  g.entries.flatMap fun (id, n) => n.preds.map fun d => (d.node, id, d)

/-- The edges that enter a node; a name without a node has none. -/
def predsOf (g : Graph) : NodeId → List Dep
  | .exit => g.exit.preds
  | .unit i => (g.nodes[i]?.map Node.preds).getD []

/-- The edges that leave a node. -/
def succsOf (g : Graph) : NodeId → List Dep
  | .exit => g.exit.succs
  | .unit i => (g.nodes[i]?.map Node.succs).getD []

def countKind (g : Graph) (k : Kind) : Nat := g.edges.countP fun (_, _, d) => d.kind == k

/-- The edges from `pred` to `succ`, as `succ` has them. -/
def edgesBetween (g : Graph) (pred succ : NodeId) : Except Fault (List Dep) := do
  let n ← g.node succ
  return n.preds.filter fun d => d.node == pred

/-- `succ` has an edge from `pred`. -/
def isPred (g : Graph) (pred succ : NodeId) : Except Fault Bool := do
  let n ← g.node succ
  return n.preds.any fun d => d.node == pred

/-- `pred` has an edge to `succ`. -/
def isSucc (g : Graph) (succ pred : NodeId) : Except Fault Bool := do
  let n ← g.node pred
  return n.succs.any fun d => d.node == succ

/-- The first edge of a kind from `pred` to `succ`. -/
def edge (g : Graph) (pred succ : NodeId) (k : Kind) : Except Fault (Option Dep) := do
  let deps ← g.edgesBetween pred succ
  return deps.find? fun d => d.kind == k

/-- Halves the `size` positions from `base` on until one is left. -/
def bisect (g : Graph) (instr : Nat) (base size : Nat) : Nat :=
  if h : size ≤ 1 then base
  else
    let mid := base + size / 2
    let after := (g.nodes[mid]?.bind Node.instr).any fun i => instr < i
    bisect g instr (if after then base else mid) (size - size / 2)
termination_by size

/-- The node that wraps the instruction at `instr`, found by bisection over ascending positions. -/
def nodeOf (g : Graph) (instr : Nat) : Option NodeId :=
  let i := g.bisect instr 0 g.nodes.size
  if (g.nodes[i]?.bind Node.instr) == some instr then some (.unit i) else none

end Graph

end Precedence
