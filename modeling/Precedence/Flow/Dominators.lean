import Precedence.Flow.Graph
import Precedence.Flow.Links

/-!
Dominators. One block dominates another if every way from the entry to the other passes through it.
Each reachable block but the entry has an immediate dominator, the nearest block above all its
predecessors; these are found by passes over the reachable blocks until nothing changes any more.
The immediate dominators form a tree with the entry as its root.
-/
namespace Precedence

/-- The reachable part of a graph, numbered in reverse post-order, with the immediate dominators. -/
structure Reachable where
  /-- the reachable blocks, each before those it discovered -/
  order : List BlockId
  /-- where each block stands in that order -/
  positions : Table Nat
  /-- each block linked to its immediate dominator -/
  links : Links

namespace FlowGraph

/-- The position of each reachable block in reverse post-order. -/
def positions (g : FlowGraph) : Table Nat :=
  g.reversePostOrder.zipIdx.foldl (fun t e => t.insert e.1.number e.2) {}

/-- The reachable blocks but the entry, in reverse post-order, with their reachable predecessors. -/
def rowsOfPreds (g : FlowGraph) : List (Nat × List Nat) :=
  let positions := g.positions
  let preds := g.predTable
  (g.reversePostOrder.zipIdx.filter fun e => e.1 != g.entry).map fun e =>
    (e.2, (preds.listAt e.1.number).filterMap fun p => positions.get? p.number)

/-- A pass that changes something brings some link closer to the entry, so there are no more such
passes than links and positions allow. -/
def links (g : FlowGraph) : Links :=
  let size := g.postOrder.length
  .settle g.rowsOfPreds (size * size) (.start size)

def reachable (g : FlowGraph) : Reachable where
  order := g.reversePostOrder
  positions := g.positions
  links := g.links

end FlowGraph

namespace Reachable

def position? (r : Reachable) (b : BlockId) : Option Nat := r.positions.get? b.number

/-- The immediate dominator. -/
def idom? (r : Reachable) (b : BlockId) : Option BlockId :=
  (r.position? b).bind fun i => (r.links.up? i).bind fun j => r.order[j]?

/-- A block dominates itself; beyond that, only reachable blocks are dominated. -/
def dominates (r : Reachable) (a b : BlockId) : Bool :=
  a == b ||
    match r.position? a, r.position? b with
    | some i, some j => r.links.climbs i j
    | _, _ => false

/-- The blocks of a list that `a` dominates. -/
def dominatedAmong (r : Reachable) (a : BlockId) (bs : List BlockId) : List BlockId :=
  bs.filter (r.dominates a)

end Reachable

/-- Every way from the entry to `b` passes through `a`. -/
def FlowGraph.dominates (g : FlowGraph) (a b : BlockId) : Bool := g.reachable.dominates a b

/-- The dominator tree. -/
structure DomTree where
  root : BlockId
  /-- the reachable blocks, in function order -/
  blocks : List BlockId
  /-- the immediate dominator of every reachable block but the root -/
  parents : Table BlockId

namespace DomTree

def ofGraph (g : FlowGraph) : DomTree :=
  let r := g.reachable
  { root := g.entry
    blocks := g.blocks.filter fun b => (r.position? b).isSome
    parents := r.order.foldl (fun t b =>
      match r.idom? b with
      | some a => t.insert b.number a
      | none => t) {} }

def contains (t : DomTree) (b : BlockId) : Bool := t.blocks.contains b

/-- The immediate dominator. -/
def parent? (t : DomTree) (b : BlockId) : Option BlockId := t.parents.get? b.number

/-- The blocks immediately dominated by `b`, in function order. -/
def children (t : DomTree) (b : BlockId) : List BlockId :=
  t.blocks.filter fun c => t.parent? c == some b

/-- Climbs up to `height` parents from `b` in search of `a`. -/
def climbs (t : DomTree) (a : BlockId) : (height : Nat) → (b : BlockId) → Bool
  | 0, b => a == b
  | height + 1, b =>
      a == b ||
        match t.parent? b with
        | some up => climbs t a height up
        | none => false

/-- The block `a` lies on the way from `b` up to the root; both may be the same. No way up is longer
than the number of parents. -/
def dominates (t : DomTree) (a b : BlockId) : Bool := t.climbs a t.parents.size b

/-- The blocks from `b` down in preorder, siblings in function order, as far as `keep` holds
without a gap; `b` itself is listed in any case. -/
def preorder (t : DomTree) (keep : BlockId → Bool) : (depth : Nat) → (b : BlockId) → List BlockId
  | 0, b => [b]
  | depth + 1, b => b :: ((t.children b).filter keep).flatMap (preorder t keep depth)

/-- A walk down the tree with a stack of the blocks still to be visited, each with the number of
levels below it: a visited block gives way to its children. -/
def walk (t : DomTree) (keep : BlockId → Bool) : (stack : List (Nat × BlockId)) → List BlockId
  | [] => []
  | (0, b) :: stack => b :: walk t keep stack
  | (depth + 1, b) :: stack =>
      b :: walk t keep (((t.children b).filter keep).map (fun c => (depth, c)) ++ stack)
termination_by stack => (stack.flatMap fun e => t.preorder keep e.1 e.2).length
decreasing_by
  · simp [preorder]
  · simp [preorder, List.flatMap_map]

theorem walk_eq_flatMap (t : DomTree) (keep : BlockId → Bool) (stack : List (Nat × BlockId)) :
    t.walk keep stack = stack.flatMap fun e => t.preorder keep e.1 e.2 := by
  fun_induction walk t keep stack with
  | case1 => rfl
  | case2 b stack ih => simp [preorder, ih]
  | case3 depth b stack ih => simp [preorder, ih, List.flatMap_map]

/-- The part of the tree below `b` inside `keep`, in the order in which the walk visits it. No branch
has more blocks than the tree. -/
def subtree (t : DomTree) (keep : BlockId → Bool) (b : BlockId) : List BlockId :=
  t.walk keep [(t.blocks.length, b)]

theorem subtree_eq_preorder (t : DomTree) (keep : BlockId → Bool) (b : BlockId) :
    t.subtree keep b = t.preorder keep t.blocks.length b := by
  simp [subtree, walk_eq_flatMap]

end DomTree

end Precedence
