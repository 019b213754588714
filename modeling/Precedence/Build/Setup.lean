import Precedence.LoopCarried
import Precedence.Options
import Precedence.Target.Alias
import Precedence.Target.Registers
import Precedence.Target.Timing
import Precedence.Graph.Basic

/-!
What a builder is given once and for all, and the graph it is working on, together with the counts
of what was done for that graph.
-/
namespace Precedence

/-- The dominator tree and the loops of the function at hand. -/
structure LoopContext where
  tree : DomTree
  loops : Loops

structure Setup where
  func : Function
  regs : RegisterInfo
  timing : Timing
  options : Options := {}
  loops : Option LoopContext := none

namespace Setup

/-- The block that a graph is about. -/
def blockOf (s : Setup) (g : Graph) : Except Fault Block := s.func.block g.block

/-- The cycles added for a value that is used as an address. -/
def addressLatency (s : Setup) : Nat :=
  if s.options.unitLatencies then 0 else s.timing.addressLatency

def instrLatency (s : Setup) (i : Instr) : Nat :=
  if s.options.unitLatencies then 1 else s.timing.instrLatency i

end Setup

/-- A graph under construction. -/
structure Draft where
  graph : Graph
  /-- edges into the exit that a loop-carried read decided -/
  hints : Nat := 0
  /-- questions put to the alias oracle, the last one first -/
  asked : List (Instr × Instr) := []
  /-- memory edges left out on the oracle's word -/
  omitted : Nat := 0

/-- Adds an edge to the graph under construction. -/
def Draft.withDep (d : Draft) (succ : NodeId) (dep : Dep) : Except Fault Draft := do
  let graph ← d.graph.withDep succ dep
  return { d with graph }

end Precedence
