import Precedence.Build.Walk

/-!
Builders. One builder serves all regions of a function: it keeps the storage of its register maps,
clears what is in them before and after each region, and counts over all the graphs it has built.
-/
namespace Precedence

/-- Counts over all graphs built. -/
structure Stats where
  regions : Nat := 0
  nodes : Nat := 0
  dataEdges : Nat := 0
  antiEdges : Nat := 0
  outputEdges : Nat := 0
  orderEdges : Nat := 0
  artificialEdges : Nat := 0
  queries : Nat := 0
  omitted : Nat := 0
  hints : Nat := 0
deriving DecidableEq

namespace Stats

def edges (s : Stats) : Nat :=
  s.dataEdges + s.antiEdges + s.outputEdges + s.orderEdges + s.artificialEdges

/-- Counts one more graph. -/
def record (s : Stats) (d : Draft) : Stats where
  regions := s.regions + 1
  nodes := s.nodes + d.graph.nodes.size
  dataEdges := s.dataEdges + d.graph.countKind .data
  antiEdges := s.antiEdges + d.graph.countKind .anti
  outputEdges := s.outputEdges + d.graph.countKind .output
  orderEdges := s.orderEdges + d.graph.countKind .order
  artificialEdges := s.artificialEdges + d.graph.countKind .artificial
  queries := s.queries + d.asked.length
  omitted := s.omitted + d.omitted
  hints := s.hints + d.hints

end Stats

structure Builder where
  regs : RegState := {}
  /-- the loop-carried reads of the region at hand -/
  loopReads : LoopReads := {}
  /-- the region at hand -/
  region : Option Region := none
  stats : Stats := {}
  /-- all questions put to alias oracles, the last one first -/
  asked : List (Instr × Instr) := []

namespace Builder

/-- Forgets the region at hand. -/
def reset (b : Builder) : Builder :=
  { b with regs := b.regs.clear, loopReads := {}, region := none }

/-- The loop-carried reads for a region, when loops are known and wanted. -/
def readsFor (s : Setup) (r : Region) (reads : LoopReads) : Except Fault LoopReads :=
  match s.loops with
  | none => .ok reads
  | some cx =>
      if s.options.analyzeLoops then
        match cx.loops.around r.block with
        | none => .ok reads
        | some loop => reads.visit s.func cx.tree loop
      else .ok reads

/-- Takes a region in hand. -/
def start (s : Setup) (b : Builder) (r : Region) : Except Fault Builder := do
  let block ← s.func.block r.block
  if ¬(r.start ≤ r.stop ∧ r.stop ≤ block.instrs.size) then
    throw (.regionOutOfRange r block.instrs.size)
  let b := b.reset
  let loopReads ← readsFor s r b.loopReads
  return { b with
    regs := b.regs.reserve s.regs.count s.func.virtualCount
    loopReads
    region := some r }

/-- Builds the graph of the region at hand. -/
def build (s : Setup) (b : Builder) (oracle : Option Oracle) : Except Fault (Builder × Graph) := do
  match b.region with
  | none => throw .notStarted
  | some r =>
      let block ← s.func.block r.block
      let graph ← s.unlinked block r
      let regs ← readAtExit s block (r.exitInstr block) b.regs
      let w ← Walk.run s b.loopReads block oracle ((r.units block).map Prod.snd)
        { regs, draft := { graph } }
      let b := { b with
        regs := w.regs
        stats := b.stats.record w.draft
        asked := w.draft.asked ++ b.asked }
      return (b.reset, w.draft.graph)

/-- Takes a region in hand and builds its graph. -/
def buildRegion (s : Setup) (b : Builder) (r : Region) (oracle : Option Oracle) :
    Except Fault (Builder × Graph) := do
  let b ← b.start s r
  b.build s oracle

/-- The regions of a function, block by block. -/
def regionsOf (f : Function) : List Region := f.blocks.flatMap Block.regions

/-- Builds the graphs of several regions in turn. -/
def buildAll (s : Setup) (oracle : Option Oracle) :
    List Region → Builder → Except Fault (Builder × List (Region × Graph))
  | [], b => .ok (b, [])
  | r :: rest, b => do
      let (b, g) ← b.buildRegion s r oracle
      let (b, built) ← buildAll s oracle rest b
      return (b, (r, g) :: built)

/-- Builds the graphs of all regions of the function. -/
def buildFunction (s : Setup) (b : Builder) (oracle : Option Oracle) :
    Except Fault (Builder × List (Region × Graph)) :=
  buildAll s oracle (regionsOf s.func) b

/-- Refines an edge of a finished graph by the loop-carried reads of the region at hand. -/
def refine (s : Setup) (b : Builder) (g : Graph) (writer reader : NodeId) (d : Dep) :
    Except Fault (Builder × Refinement) := do
  let r ← s.refine b.loopReads g writer reader d
  let hints := if r.hinted then b.stats.hints + 1 else b.stats.hints
  return ({ b with stats := { b.stats with hints } }, r)

end Builder

end Precedence
