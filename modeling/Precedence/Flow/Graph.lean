import Precedence.Machine.Function
import Precedence.Flow.BlockSet
import Precedence.Table

/-!
The control flow of a function: which blocks follow which, and the blocks that the entry reaches in
the order in which a depth-first search finishes them. Successors that name no block are ignored.
-/
namespace Precedence

structure FlowGraph where
  entry : BlockId
  /-- each block with its successors, in function order -/
  rows : List (BlockId × List BlockId)
  /-- the reachable blocks, each finished after all it discovered -/
  postOrder : List BlockId
deriving DecidableEq

/-- A depth-first search. The stack holds the open blocks with the successors they have not looked
at, `fresh` the blocks not discovered yet, and `done` the finished ones, the last one first. -/
def finishOrder (next : BlockId → List BlockId) :
    (stack : List (BlockId × List BlockId)) → (fresh : BlockSet) → (done : List BlockId) →
    List BlockId
  | [], _, done => done.reverse
  | (b, []) :: stack, fresh, done => finishOrder next stack fresh (b :: done)
  | (b, s :: later) :: stack, fresh, done =>
      if fresh.contains s then
        finishOrder next ((s, next s) :: (b, later) :: stack) (fresh.erase s) done
      else finishOrder next ((b, later) :: stack) fresh done
termination_by stack fresh => (fresh.size, stack.foldr (fun f n => f.2.length + 1 + n) 0)
decreasing_by
  · exact Prod.Lex.right _ (by simp)
  · rename_i h
    exact Prod.Lex.left _ _ (BlockSet.size_erase_lt h)
  · exact Prod.Lex.right _ (by simp)

namespace FlowGraph

def blocks (g : FlowGraph) : List BlockId := g.rows.map Prod.fst

/-- The successors of a block; of several rows for one name, the last one counts. -/
def succs? (g : FlowGraph) (b : BlockId) : Option (List BlockId) := g.rows.reverse.lookup b

def succs (g : FlowGraph) (b : BlockId) : List BlockId := (g.succs? b).getD []

/-- The successors of all blocks, for look-up. -/
def succTable (g : FlowGraph) : Table (List BlockId) :=
  g.rows.foldl (fun t e => t.insert e.1.number e.2) {}

/-- Every edge, in function order. -/
def arcs (g : FlowGraph) : List (BlockId × BlockId) :=
  g.rows.flatMap fun (b, succs) => succs.map fun s => (b, s)

/-- The blocks with an edge to `b`, one entry for each edge. -/
def preds (g : FlowGraph) (b : BlockId) : List BlockId :=
  (g.arcs.filter fun e => e.2 == b).map Prod.fst

/-- The blocks that the edges to each block come from, for look-up. -/
def predTable (g : FlowGraph) : Table (List BlockId) :=
  .gather (g.arcs.map fun e => (e.2.number, e.1))

/-- The reachable blocks in the opposite order: a block stands before those it discovered. -/
def reversePostOrder (g : FlowGraph) : List BlockId := g.postOrder.reverse

/-- The entry reaches the block. -/
def isReachable (g : FlowGraph) (b : BlockId) : Bool := g.postOrder.contains b

/-- The control flow of a function. Only a function without blocks may lack its entry. -/
def ofFunction (f : Function) : Except Fault FlowGraph :=
  let rows := f.blocks.map fun b => (b.id, b.successors.filter f.hasBlock)
  let g : FlowGraph := { entry := f.entry, rows, postOrder := [] }
  if rows.isEmpty then .ok g
  else
    match g.succs? f.entry with
    | none => .error .missingKey
    | some succs =>
        let table := g.succTable
        let fresh := (BlockSet.ofList g.blocks).erase f.entry
        .ok { g with
          postOrder := finishOrder (fun b => table.listAt b.number) [(f.entry, succs)] fresh [] }

end FlowGraph

end Precedence
