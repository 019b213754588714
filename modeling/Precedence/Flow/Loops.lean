import Precedence.Flow.Dominators
import Precedence.Flow.Spread

/-!
Natural loops. An edge to a block that dominates its source closes a loop with that block as the
header; the loop holds every block that gets to such an edge without passing the header. Edges with
a common header make one loop.
-/
namespace Precedence

structure Loop where
  header : BlockId
  blocks : List BlockId
deriving DecidableEq

def Loop.contains (l : Loop) (b : BlockId) : Bool := l.blocks.contains b

/-- The loops of a function, in ascending order of their headers. -/
structure Loops where
  loops : List Loop
deriving DecidableEq

namespace Loops

/-- The edges that close loops: a block heads a loop if it dominates the source of an edge to it. -/
def closing (g : FlowGraph) : List (BlockId × BlockId) :=
  let r := g.reachable
  let succs := g.succTable
  g.blocks.flatMap fun tail =>
    ((succs.listAt tail.number).filter fun header => r.dominates header tail).map fun header =>
      (tail, header)

/-- The blocks of the loop that one edge closes: the header, and all from which the tail can be
reached without passing the header. -/
def body (preds : BlockId → List BlockId) (blocks : BlockSet) (tail header : BlockId) : List BlockId :=
  header :: spread preds [tail] (blocks.erase header)

/-- The blocks of the loop of a header, none if there is no such loop. -/
def blocksAt (t : Table Loop) (header : BlockId) : List BlockId :=
  ((t.get? header.number).map Loop.blocks).getD []

/-- Adds blocks to the loop of a header, which is made if there is none. -/
def extend (t : Table Loop) (header : BlockId) (blocks : List BlockId) : Table Loop :=
  let old := blocksAt t header
  let known := BlockSet.ofList old
  t.insert header.number { header, blocks := old ++ blocks.filter fun b => !known.contains b }

def compute (g : FlowGraph) : Loops :=
  let preds := g.predTable
  let blocks := BlockSet.ofList g.blocks
  let found := (closing g).foldl (fun t e =>
    extend t e.2 (body (fun b => preds.listAt b.number) blocks e.1 e.2)) {}
  ⟨found.toList.map Prod.snd⟩

def isHeader (l : Loops) (b : BlockId) : Bool := l.loops.any fun lp => lp.header == b

/-- How many loops there are around each block, counted loop by loop. -/
def depths (l : Loops) : Table Nat :=
  l.loops.foldl (fun t lp =>
    lp.blocks.foldl (fun t b => t.insert b.number (t.getD b.number 0 + 1)) t) {}

def depth (l : Loops) (b : BlockId) : Nat := l.depths.getD b.number 0

/-- The loop with fewer blocks; of two equally large ones, the one named first. -/
def smaller (a b : Loop) : Loop := if b.blocks.length < a.blocks.length then b else a

/-- The innermost loop around a block. -/
def around (l : Loops) (b : BlockId) : Option Loop :=
  match l.loops.filter fun lp => lp.contains b with
  | [] => none
  | lp :: rest => some (rest.foldl smaller lp)

end Loops

end Precedence
