import Precedence.Fault
import Precedence.Machine.Access

/-!
Functions: blocks in order, an entry, and a count of the virtual registers in use. Block names
need not be distinct; a name stands for the first block that bears it.
-/
namespace Precedence

structure Function where
  name : Option String := none
  blocks : List Block := []
  entry : BlockId := ⟨0⟩
  virtualCount : Nat := 0

namespace Function

def hasBlock (f : Function) (id : BlockId) : Bool := f.blocks.any fun b => b.id == id

/-- The block named `id`. -/
def block (f : Function) (id : BlockId) : Except Fault Block :=
  match f.blocks.find? fun b => b.id == id with
  | some b => .ok b
  | none => .error (.blockNotFound id)

/-- Changes the block named `id`. -/
def modifyBlock (f : Function) (id : BlockId) (change : Block → Block) : Except Fault Function :=
  match f.blocks.findIdx? fun b => b.id == id with
  | some i => .ok { f with blocks := f.blocks.modify i change }
  | none => .error (.blockNotFound id)

/-- Appends an empty block, named by its position. -/
def addBlock (f : Function) : Function × BlockId :=
  let id : BlockId := ⟨f.blocks.length⟩
  ({ f with blocks := f.blocks ++ [{ id }] }, id)

/-- Takes the next virtual register into use. -/
def addVirtual (f : Function) : Except Fault (Function × Reg) := do
  let r ← Reg.virtual f.virtualCount
  return ({ f with virtualCount := f.virtualCount + 1 }, r)

/-- Adds a control-flow edge unless it is there already. -/
def addSuccessor (f : Function) (source target : BlockId) : Except Fault Function :=
  f.modifyBlock source fun b =>
    if b.successors.contains target then b else { b with successors := b.successors ++ [target] }

/-- Appends an instruction to a block and gives its position there. -/
def push (f : Function) (id : BlockId) (i : Instr) : Except Fault (Function × Nat) := do
  let b ← f.block id
  let f ← f.modifyBlock id fun b => { b with instrs := b.instrs.push i }
  return (f, b.instrs.size)

def setLiveIns (f : Function) (id : BlockId) (regs : List Reg) : Except Fault Function :=
  f.modifyBlock id fun b => { b with liveIns := regs }

def renumber (f : Function) (id new : BlockId) : Except Fault Function :=
  f.modifyBlock id fun b => { b with id := new }

/-- The register is expected on entry to the block named `id`. -/
def isLiveIn (f : Function) (id : BlockId) (r : Reg) : Except Fault Bool := do
  let b ← f.block id
  return b.liveIns.contains r

end Function

end Precedence
