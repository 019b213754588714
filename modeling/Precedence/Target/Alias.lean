import Precedence.Machine.Access

/-!
What is known about two instructions touching the same memory. `Oracle.offsets` compares the byte
ranges that memory operands describe; other oracles answer by opcode.
-/
namespace Precedence

inductive AliasAnswer where
  /-- the two never touch the same byte -/
  | no
  /-- nothing is known -/
  | may
  /-- the two touch exactly the same bytes -/
  | must
deriving DecidableEq

/-- Answers for the instruction asked about first and the one asked about second. -/
abbrev Oracle := Instr → Instr → Except Fault AliasAnswer

/-- How two memory operands relate, from their objects and byte ranges alone. -/
def MemOperand.alias (m n : MemOperand) : Except Fault AliasAnswer :=
  match m.object, n.object with
  | some o, some p =>
      if o.id ≠ p.id then .ok .no
      else do
        if ← m.rangesOverlap n then
          return if m.offset = n.offset ∧ m.size = n.size then .must else .may
        else
          return .no
  | _, _ => .ok .may

namespace Oracle

/-- The answer for a list of operand pairs: the first that may alias decides, and of the others one
that must alias is enough. -/
def ofPairs : List (MemOperand × MemOperand) → Except Fault AliasAnswer
  | [] => .ok .no
  | (m, n) :: rest => do
      match ← m.alias n with
      | .no => ofPairs rest
      | .may => return .may
      | .must => return if (← ofPairs rest) = .may then .may else .must

/-- Every memory operand of one list paired with every one of the other. -/
def pairs (ms ns : List MemOperand) : List (MemOperand × MemOperand) :=
  ms.flatMap fun m => ns.map fun n => (m, n)

/-- Compares byte ranges inside identified objects; distinct objects never overlap. Where memory
operands are missing or name no object, nothing is known. -/
def offsets : Oracle := fun a b =>
  if a.memOperands.isEmpty || b.memOperands.isEmpty then .ok .may
  else ofPairs (pairs a.memOperands b.memOperands)

/-- The same answer to every question. -/
def always (answer : AliasAnswer) : Oracle := fun _ _ => .ok answer

/-- The answer of the first row with the opcodes asked about, in either order unless `directed`;
nothing is known where no row fits. -/
def ofRows (rows : List (String × String × AliasAnswer)) (directed : Bool) : Oracle := fun a b =>
  let fits (x y : String) : Bool := x == a.opcode && y == b.opcode
  .ok <| ((rows.find? fun (x, y, _) => fits x y || (!directed && fits y x)).map
    fun (_, _, answer) => answer).getD .may

end Oracle

end Precedence
