import Precedence.Fault

/-!
Accesses to registers, operands and memory descriptions that have an answer only when the thing
asked for is there.
-/
namespace Precedence

namespace Reg

/-- The virtual register at a position. -/
def virtual (position : Nat) : Except Fault Reg :=
  if position < firstVirtual then .ok ⟨firstVirtual + position⟩ else .error .virtualIndexOverflow

/-- The position of a virtual register. -/
def virtualIndex (r : Reg) : Except Fault Nat :=
  if r.isVirtual then .ok r.virtualPosition else .error (.notVirtual r)

end Reg

/-- The register operand at a position. -/
def Instr.regOperandAt (i : Instr) (pos : Nat) : Except Fault RegOperand :=
  match i.operands[pos]? with
  | some (.reg o) => .ok o
  | some found => .error (.notARegister pos i.opcode found)
  | none => .error .indexOutOfBounds

/-- The byte ranges of two accesses intersect, their objects left aside. -/
def MemOperand.rangesOverlap (m n : MemOperand) : Except Fault Bool := do
  let stop ← addOffset m.offset m.size
  let stop' ← addOffset n.offset n.size
  return decide (m.offset < stop' ∧ n.offset < stop)

end Precedence
