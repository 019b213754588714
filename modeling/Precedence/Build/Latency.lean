import Precedence.Build.Setup

/-!
The latency of nodes and of edges that carry a value. An edge between two units is refined by what
the target knows about the two operands. An edge to the exit is refined by what is known about the
next turn of the loop: a reader `count` instructions into its block hides that many cycles, and a
reader in the same block that needs an address asks for the writer to come early.
-/
namespace Precedence

namespace Setup

/-- Gives a node the latency of its instruction. -/
def setLatency (s : Setup) (g : Graph) (id : NodeId) : Except Fault Graph := do
  if s.options.unitLatencies then
    g.modifyNode id fun n => { n with latency := 1 }
  else
    let b ← s.blockOf g
    let i ← g.instr id b
    g.modifyNode id fun n => { n with latency := (i.map s.timing.instrLatency).getD 0 }

end Setup

/-- What the next turn of a loop says about an edge to the exit. -/
inductive LoopHint where
  | none
  | latency (cycles : Nat)
  | scheduleHigh

/-- The hint for a value that `writer` leaves in `reg`. -/
def Setup.loopHint (s : Setup) (reads : LoopReads) (g : Graph) (writer : NodeId) (reg : Reg) :
    Except Fault LoopHint := do
  match LoopReads.ofReg reads reg with
  | none => return .none
  | some read =>
      let b ← s.func.block read.block
      match b.instrs[read.instr]? with
      | none => throw .indexOutOfBounds
      | some reader =>
          let o ← reader.regOperandAt read.operand
          let feedsAddress := o.isAddress && reader.accessesMemory
          let special := s.timing.addressLatency
          if read.block ≠ g.block then
            let n ← g.node writer
            let latency ← if feedsAddress then addLatency n.latency special else pure n.latency
            return .latency (latency - read.count)
          else if 0 < special && feedsAddress then return .scheduleHigh
          else return .none

/-- An edge that carries a value, refined, with the graph it belongs to. -/
structure Refinement where
  graph : Graph
  dep : Dep
  /-- the next turn of a loop decided -/
  hinted : Bool := false

namespace Setup

/-- Refines an edge to the exit for the value that operand `pos` of `i` leaves in `reg`. -/
def refineAtExit (s : Setup) (reads : LoopReads) (g : Graph) (writer : NodeId) (i : Instr)
    (pos : Nat) (reg : Reg) (d : Dep) : Except Fault Refinement := do
  match ← s.loopHint reads g writer reg with
  | .latency latency => return { graph := g, dep := { d with latency }, hinted := true }
  | .scheduleHigh =>
      let graph ← g.modifyNode writer fun n => { n with scheduleHigh := true }
      return { graph, dep := d, hinted := true }
  | .none =>
      return { graph := g, dep := { d with latency := (s.timing.defCycle i pos).getD d.latency } }

/-- The greatest latency that the target knows from operand `pos` of `i` to a read of `reg`. -/
def operandLatency (s : Setup) (i : Instr) (pos : Nat) (reader : Instr) (reg : Reg) : Option Nat :=
  (reader.useOperands.filterMap fun (pos', o) =>
    if o.reg = reg then s.timing.operandLatency i pos reader pos' else none).max?

/-- Refines the edge `d` from `writer` to `reader`. Edges that carry no value stay as they are, and
so does everything when all latencies are one. -/
def refine (s : Setup) (reads : LoopReads) (g : Graph) (writer reader : NodeId) (d : Dep) :
    Except Fault Refinement := do
  if s.options.unitLatencies || d.kind != .data then
    return { graph := g, dep := d }
  match d.reg with
  | none => return { graph := g, dep := d }
  | some reg =>
      let b ← s.blockOf g
      match ← g.instr writer b with
      | none => return { graph := g, dep := d }
      | some i =>
          match d.defOperand.or (i.findDef reg) with
          | none => return { graph := g, dep := d }
          | some pos =>
              let j ← if reader = .exit then pure none else g.instr reader b
              match j with
              | none =>
                  let r ← s.refineAtExit reads g writer i pos reg d
                  return { r with dep := s.timing.adjust i none r.dep }
              | some j =>
                  let latency := (s.operandLatency i pos j reg).getD d.latency
                  return { graph := g, dep := s.timing.adjust i (some j) { d with latency } }

end Setup

/-- Refines an edge from `writer` to `reader` and adds it. -/
def Draft.addValue (d : Draft) (s : Setup) (reads : LoopReads) (writer reader : NodeId)
    (dep : Dep) : Except Fault Draft := do
  let r ← s.refine reads d.graph writer reader dep
  let graph ← r.graph.withDep reader r.dep
  return { d with graph, hints := if r.hinted then d.hints + 1 else d.hints }

end Precedence
