import Precedence.Machine.Instr

/-!
Building instructions operand by operand, and descriptions of memory. Every step appends one
operand or sets one property, so that an instruction reads as the chain of its parts.
-/
namespace Precedence

namespace MemOperand

/-- An access nothing is known about. -/
def unknown (size : Nat) : MemOperand := { size }

/-- An access to an object that other pointers may reach. -/
def ofObject (id : Nat) (offset : Int) (size : Nat) : MemOperand :=
  { object := some ⟨id, true⟩, offset, size }

/-- An access to an object that no other pointer reaches. -/
def ofPrivate (id : Nat) (offset : Int) (size : Nat) : MemOperand :=
  { object := some ⟨id, false⟩, offset, size }

end MemOperand

namespace Instr

def withOperand (i : Instr) (o : Operand) : Instr := { i with operands := i.operands ++ [o] }

def withDef (i : Instr) (reg : Reg) : Instr := i.withOperand (.reg { reg, isDef := true })

def withDeadDef (i : Instr) (reg : Reg) : Instr :=
  i.withOperand (.reg { reg, isDef := true, isDead := true })

def withImplicitDef (i : Instr) (reg : Reg) : Instr :=
  i.withOperand (.reg { reg, isDef := true, isImplicit := true })

def withUse (i : Instr) (reg : Reg) : Instr := i.withOperand (.reg { reg })

def withKill (i : Instr) (reg : Reg) : Instr := i.withOperand (.reg { reg, isKill := true })

def withUndefUse (i : Instr) (reg : Reg) : Instr := i.withOperand (.reg { reg, isUndefined := true })

def withAddress (i : Instr) (reg : Reg) : Instr := i.withOperand (.reg { reg, isAddress := true })

def withImplicitUse (i : Instr) (reg : Reg) : Instr :=
  i.withOperand (.reg { reg, isImplicit := true })

def withImm (i : Instr) (value : Int) : Instr := i.withOperand (.imm value)

def withOther (i : Instr) : Instr := i.withOperand .other

/-- A load through `m`. -/
def loading (i : Instr) (m : MemOperand) : Instr :=
  { i.withOperand (.mem m) with flags := { i.flags with mayLoad := true } }

/-- A store through `m`. -/
def storing (i : Instr) (m : MemOperand) : Instr :=
  { i.withOperand (.mem m) with flags := { i.flags with mayStore := true } }

def calling (i : Instr) : Instr := { i with flags := { i.flags with isCall := true } }

def terminating (i : Instr) : Instr := { i with flags := { i.flags with isTerminator := true } }

def labelling (i : Instr) : Instr := { i with flags := { i.flags with isLabel := true } }

def withSideEffects (i : Instr) : Instr :=
  { i with flags := { i.flags with hasSideEffects := true } }

def bounding (i : Instr) : Instr := { i with flags := { i.flags with isBoundary := true } }

/-- The pseudo instruction that tells a debugger where `reg` is read. -/
def debugValue (reg : Reg) : Instr :=
  { ({ opcode := "DBG_VALUE" } : Instr).withUse reg with flags := { isDebugValue := true } }

end Instr

end Precedence
