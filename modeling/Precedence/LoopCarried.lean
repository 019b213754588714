import Precedence.Flow.Loops

/-!
Where a loop last reads the registers that its header expects. A value written near the end of the
loop body and read in the next turn has as many cycles to spare as instructions stand in front of
its reader.
-/
namespace Precedence

/-- A read, with the number of instructions in front of it in its block, debug values left out. -/
structure LoopRead where
  block : BlockId
  instr : Nat
  operand : Nat
  count : Nat
deriving DecidableEq

/-- The last reads by register number. -/
abbrev LoopReads := Table LoopRead

namespace LoopReads

/-- The last read of a register. -/
def ofReg (t : LoopReads) (r : Reg) : Option LoopRead := t.get? r.number

/-- The reads of a list of instructions, of which the first stands at `pos` with `count` of them in
front, in order. -/
def readsFrom (block : BlockId) (pos count : Nat) : List Instr → List (Reg × LoopRead)
  | [] => []
  | i :: rest =>
      if i.isDebugValue then readsFrom block (pos + 1) count rest
      else
        (i.useOperands.map fun (operand, o) => (o.reg, { block, instr := pos, operand, count }))
          ++ readsFrom block (pos + 1) (count + 1) rest

/-- The reads of a block, in order. -/
def readsIn (id : BlockId) (b : Block) : List (Reg × LoopRead) := readsFrom id 0 0 b.instrs.toList

/-- Looks through a loop, block by block down the dominator tree, for reads of the registers live
into its header; the last one seen of each register stays. -/
def visit (t : LoopReads) (f : Function) (tree : DomTree) (loop : Loop) : Except Fault LoopReads := do
  if !t.isEmpty then
    throw .staleLoopReads
  if !loop.contains loop.header then
    throw (.headerOutsideLoop loop.header)
  if !tree.contains loop.header then
    throw (.headerUnreachable loop.header)
  let header ← f.block loop.header
  if header.liveIns.isEmpty then
    return t
  let reads ← (tree.subtree loop.contains loop.header).mapM fun id => do
    let b ← f.block id
    return readsIn id b
  let carried := reads.flatten.filter fun e => header.liveIns.contains e.1
  return carried.foldl (fun t (r, read) => t.insert r.number read) t

end LoopReads

end Precedence
