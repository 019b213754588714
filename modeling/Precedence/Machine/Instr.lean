import Precedence.Machine.Reg

/-!
Machine instructions as a scheduler sees them: register operands with their allocator flags,
descriptions of the memory touched, and a few properties of the opcode. The questions asked of an
instruction (what it writes, what it reads, whether it is a barrier) are answered here and nothing
else is known about an opcode.
-/
namespace Precedence

/-- A register operand. It writes the register when `isDef` is set and names a read otherwise. -/
structure RegOperand where
  reg : Reg
  isDef : Bool := false
  isKill : Bool := false
  isDead : Bool := false
  isUndefined : Bool := false
  isAddress : Bool := false
  isImplicit : Bool := false
deriving DecidableEq

/-- An operand marked undefined names the register without needing its value. -/
def RegOperand.reads (o : RegOperand) : Bool := !o.isDef && !o.isUndefined

/-- An identified memory object. When `mayAlias` is off, no access but those that name the object
reaches it. -/
structure MemObject where
  id : Nat
  mayAlias : Bool
deriving DecidableEq

/-- A description of bytes touched: `size` of them from `offset` on, inside `object` if known. -/
structure MemOperand where
  object : Option MemObject := none
  offset : Int := 0
  size : Nat := 0
  isVolatile : Bool := false
  isInvariant : Bool := false
deriving DecidableEq

/-- The object is identified and no unidentified access reaches it. -/
def MemOperand.isPrivate (m : MemOperand) : Bool := m.object.any fun o => !o.mayAlias

inductive Operand where
  | reg (o : RegOperand)
  | imm (value : Int)
  | mem (m : MemOperand)
  | other
deriving DecidableEq

namespace Operand

def reg? : Operand → Option RegOperand
  | .reg o => some o
  | _ => none

def mem? : Operand → Option MemOperand
  | .mem m => some m
  | _ => none

end Operand

structure InstrFlags where
  mayLoad : Bool := false
  mayStore : Bool := false
  isCall : Bool := false
  isTerminator : Bool := false
  isLabel : Bool := false
  isDebugValue : Bool := false
  hasSideEffects : Bool := false
  isBoundary : Bool := false
deriving DecidableEq

structure Instr where
  opcode : String
  operands : List Operand := []
  flags : InstrFlags := {}
deriving DecidableEq

namespace Instr

/-- The register operands with their operand positions; operands that name no register are left
out. -/
def regOperands (i : Instr) : List (Nat × RegOperand) :=
  i.operands.zipIdx.filterMap fun (o, pos) =>
    o.reg?.bind fun r => if r.reg.isNone then none else some (pos, r)

/-- The operands that write a register, with their positions. -/
def defOperands (i : Instr) : List (Nat × RegOperand) := i.regOperands.filter fun o => o.2.isDef

/-- The operands that read a register, with their positions. -/
def useOperands (i : Instr) : List (Nat × RegOperand) := i.regOperands.filter fun o => o.2.reads

/-- The registers written, in operand order. -/
def defs (i : Instr) : List Reg := i.defOperands.map fun o => o.2.reg

/-- The registers read, in operand order. -/
def uses (i : Instr) : List Reg := i.useOperands.map fun o => o.2.reg

def memOperands (i : Instr) : List MemOperand := i.operands.filterMap Operand.mem?

/-- The position of the first operand that writes exactly `r`. -/
def findDef (i : Instr) (r : Reg) : Option Nat :=
  (i.defOperands.find? fun o => o.2.reg == r).map Prod.fst

/-- The position of the first operand that reads exactly `r`. -/
def findUse (i : Instr) (r : Reg) : Option Nat :=
  (i.useOperands.find? fun o => o.2.reg == r).map Prod.fst

/-- Every write of exactly `r` is dead; true when there is none. -/
def defIsDead (i : Instr) (r : Reg) : Bool :=
  i.defOperands.all fun o => o.2.reg != r || o.2.isDead

def mayLoad (i : Instr) : Bool := i.flags.mayLoad
def mayStore (i : Instr) : Bool := i.flags.mayStore
def isCall (i : Instr) : Bool := i.flags.isCall
def isDebugValue (i : Instr) : Bool := i.flags.isDebugValue

/-- The instruction loads or stores. -/
def accessesMemory (i : Instr) : Bool := i.mayLoad || i.mayStore

/-- Calls and undescribed side effects: nothing moves across these. -/
def isBarrier (i : Instr) : Bool := i.flags.isCall || i.flags.hasSideEffects

/-- Terminators, labels and declared boundaries end a scheduling region. -/
def isBoundary (i : Instr) : Bool :=
  i.flags.isTerminator || i.flags.isLabel || i.flags.isBoundary

/-- A memory access whose order is kept: a volatile one, or one that nothing describes. -/
def hasOrderedAccess (i : Instr) : Bool :=
  i.accessesMemory && (i.memOperands.isEmpty || i.memOperands.any MemOperand.isVolatile)

/-- A pure load, described by its memory operands, from memory that never changes. -/
def isInvariantLoad (i : Instr) : Bool :=
  i.mayLoad && !i.mayStore && !i.memOperands.isEmpty && i.memOperands.all MemOperand.isInvariant

/-- Several memory operands, one of them private. Such objects are tracked one at a time only. -/
def spansPrivateObjects (i : Instr) : Bool :=
  !i.isInvariantLoad && decide (2 ≤ i.memOperands.length) && i.memOperands.any MemOperand.isPrivate

/-- All memory effects are ordered against this instruction. -/
def isGlobalAccess (i : Instr) : Bool :=
  i.isBarrier || i.hasOrderedAccess || i.spansPrivateObjects

/-- The identified object of an instruction with exactly one memory operand. -/
def underlyingObject (i : Instr) : Option MemObject :=
  match i.memOperands with
  | [m] => m.object
  | _ => none

end Instr

end Precedence
