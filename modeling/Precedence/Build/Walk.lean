import Precedence.Build.Barrier
import Precedence.Build.Memory

/-!
The walk through a region from its last instruction to its first. Each instruction gets its edges
to the nodes below it from three sides in turn: registers, barriers, memory.
-/
namespace Precedence

/-- The instructions of a region with their positions. -/
def Region.body (r : Region) (b : Block) : List (Nat × Instr) :=
  ((b.instrs.toList.take r.stop).zipIdx.drop r.start).map fun (i, pos) => (pos, i)

/-- The instructions of a region that become nodes. -/
def Region.units (r : Region) (b : Block) : List (Nat × Instr) :=
  (r.body b).filter fun e => !e.2.isDebugValue

/-- The debug values of a region, by their positions. -/
def Region.debugPositions (r : Region) (b : Block) : List Nat :=
  ((r.body b).filter fun e => e.2.isDebugValue).map Prod.fst

/-- The node of an instruction, without edges yet. -/
def Setup.nodeOf (s : Setup) (pos : Nat) (i : Instr) : Node :=
  { instr := some pos, latency := s.instrLatency i, isCall := i.isCall }

/-- Terminators and labels end a region and cannot stand inside it. -/
def Instr.checkInside (i : Instr) : Except Fault Unit :=
  if i.flags.isTerminator || i.flags.isLabel then .error (.unschedulable i) else .ok ()

/-- The nodes of a region in program order, with debug values anchored to the positions in front of
them. The exit wraps the boundary instruction, if there is one. -/
def Setup.unlinked (s : Setup) (b : Block) (r : Region) : Except Fault Graph := do
  (r.units b).forM fun (_, i) => i.checkInside
  let debug := r.debugPositions b
  return {
    block := r.block
    start := r.start
    stop := r.stop
    nodes := ((r.units b).map fun (pos, i) => s.nodeOf pos i).toArray
    exit := { instr := (r.exitInstr b).map fun _ => r.stop }
    debugValues := (debug.filter (· != r.start)).map fun pos => (pos, pos - 1)
    openingDebug := debug.find? (· == r.start) }

/-- The state of the walk. -/
structure Walk where
  regs : RegState
  barriers : Barriers := {}
  chains : MemoryChains := {}
  draft : Draft

namespace Walk

/-- Adds the edges of one instruction to the nodes below it. -/
def step (s : Setup) (reads : LoopReads) (b : Block) (oracle : Option Oracle) (w : Walk)
    (su : NodeId) (i : Instr) : Except Fault Walk := do
  let (regs, draft) ← addRegisterDeps s reads b su i w.regs w.draft
  let (barriers, tracker, draft) ← addBarrierDeps s su i w.barriers regs.tracker draft
  let scope : MemoryScope := { block := b, oracle, options := s.options }
  let m ← MemoryWalk.add scope su i { chains := w.chains, draft }
  return { regs := { regs with tracker }, barriers, chains := m.chains, draft := m.draft }

/-- Walks through numbered instructions from the last to the first. -/
def run (s : Setup) (reads : LoopReads) (b : Block) (oracle : Option Oracle) (units : List Instr)
    (w : Walk) : Except Fault Walk :=
  units.zipIdx.reverse.foldlM (fun w (i, k) => w.step s reads b oracle (.unit k) i) w

end Walk

end Precedence
