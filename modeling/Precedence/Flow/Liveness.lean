import Precedence.Flow.Graph
import Precedence.Flow.RegSet

/-!
Which registers hold values still to be read. A register is live before an instruction that reads
it, and before one that does not write it if it is live after that one. Around a loop this is a
least solution, reached by passes over the blocks that only ever add registers.
-/
namespace Precedence

/-- The registers live before an instruction, from those live after it. Only what an instruction
names exactly counts, and debug values count for nothing. -/
def Instr.liveBefore (i : Instr) (after : RegSet) : RegSet :=
  if i.isDebugValue then after
  else
    let written := i.defs.filter fun r => !r.isVirtual
    let read := i.uses.filter fun r => !r.isVirtual
    read.foldl (fun s r => s.insert r) (written.foldl RegSet.erase after)

/-- The registers live before a run of instructions, from those live behind it. -/
def liveBeforeAll (after : RegSet) (instrs : List Instr) : RegSet :=
  instrs.foldr Instr.liveBefore after

/-- The registers live at the start and at the end of each block. -/
structure Liveness where
  liveIn : Table RegSet := {}
  liveOut : Table RegSet := {}

namespace Liveness

def inOf (l : Liveness) (b : BlockId) : RegSet := (l.liveIn.get? b.number).getD .empty

/-- Both say the same of every block. -/
def agrees (l l' : Liveness) : Bool :=
  l.liveIn.toList == l'.liveIn.toList && l.liveOut.toList == l'.liveOut.toList

/-- Looks again at one block, in the light of what is known about its successors. -/
def visit (f : Function) (succs : BlockId → List BlockId) (l : Liveness) (b : BlockId) : Liveness :=
  let out := (succs b).foldl (fun s succ => s.union (l.inOf succ)) .empty
  let instrs := ((f.blocks.find? fun c => c.id == b).map fun c => c.instrs.toList).getD []
  { liveIn := l.liveIn.insert b.number (liveBeforeAll out instrs)
    liveOut := l.liveOut.insert b.number out }

/-- Looks at every block of a list once. -/
def pass (f : Function) (succs : BlockId → List BlockId) (blocks : List BlockId) (l : Liveness) :
    Liveness :=
  blocks.foldl (visit f succs) l

/-- Nothing is live anywhere. -/
def start (f : Function) : Liveness :=
  let nowhere := f.blocks.foldl (fun t b => t.insert b.id.number RegSet.empty) {}
  { liveIn := nowhere, liveOut := nowhere }

/-- Passes until nothing changes any more, or for `rounds` passes. -/
def settle (f : Function) (succs : BlockId → List BlockId) (blocks : List BlockId) :
    (rounds : Nat) → Liveness → Liveness
  | 0, l => l
  | rounds + 1, l =>
      let l' := pass f succs blocks l
      if l'.agrees l then l else settle f succs blocks rounds l'

/-- A pass that changes something adds a register to a set of some block, so there are no more such
passes than blocks and operands allow. -/
def rounds (f : Function) : Nat :=
  let operands := f.blocks.flatMap fun b => b.instrs.toList.flatMap fun i => i.operands
  2 * f.blocks.length * operands.length + 1

/-- Passes over the reachable blocks, successors first as far as possible. -/
def compute (f : Function) (g : FlowGraph) : Liveness :=
  let succs := g.succTable
  settle f (fun b => succs.listAt b.number) g.postOrder (rounds f) (start f)

/-- Stores the sets as the live-ins of the blocks. -/
def applyLiveIns (l : Liveness) (f : Function) : Function :=
  { f with
    blocks := f.blocks.map fun b =>
      match l.liveIn.get? b.id.number with
      | some s => { b with liveIns := s.regs }
      | none => b }

end Liveness

end Precedence
