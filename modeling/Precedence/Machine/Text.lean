import Precedence.Machine.Instr

/-!
The written form of instructions, and the long form of a single operand that appears in reports
about misused operands. Writes stand left of an equals sign, everything else follows the opcode.
-/
namespace Precedence

namespace RegOperand

def defText (o : RegOperand) : String := if o.isDead then o.reg.text ++ "<dead>" else o.reg.text

/-- A kill is shown in preference to an undefined read. -/
def useText (o : RegOperand) : String :=
  if o.isKill then o.reg.text ++ "<kill>"
  else if o.isUndefined then o.reg.text ++ "<undef>"
  else o.reg.text

end RegOperand

def MemOperand.text (m : MemOperand) : String :=
  match m.object with
  | some o => "[obj" ++ toString o.id ++ "+" ++ toString m.offset ++ "]"
  | none => "[?]"

namespace Operand

/-- The text right of the opcode; writes have none. -/
def text? : Operand → Option String
  | .reg o => if o.isDef then none else some o.useText
  | .imm v => some (toString v)
  | .mem m => some m.text
  | .other => some "<other>"

private def field (name value : String) : String := name ++ ": " ++ value

private def record (name : String) (fields : List String) : String :=
  name ++ " \x7b " ++ ", ".intercalate fields ++ " \x7d"

private def flag (name : String) (b : Bool) : String := field name (toString b)

/-- Every field of the operand, spelled out. -/
def longText : Operand → String
  | .reg o => "Reg(" ++ record "RegOperand"
      [field "reg" ("Reg(" ++ toString o.reg.number ++ ")"), flag "is_def" o.isDef,
        flag "is_kill" o.isKill, flag "is_dead" o.isDead, flag "is_undef" o.isUndefined,
        flag "is_address" o.isAddress, flag "is_implicit" o.isImplicit] ++ ")"
  | .imm v => "Imm(" ++ toString v ++ ")"
  | .mem m =>
      let object := match m.object with
        | some o => "Some(" ++ record "MemObject"
            [field "id" (toString o.id), flag "may_alias" o.mayAlias] ++ ")"
        | none => "None"
      "Mem(" ++ record "MemOperand"
        [field "object" object, field "offset" (toString m.offset), field "size" (toString m.size),
          flag "is_volatile" m.isVolatile, flag "is_invariant" m.isInvariant] ++ ")"
  | .other => "Other"

end Operand

namespace Instr

private def written (i : Instr) : String :=
  match i.defOperands with
  | [] => ""
  | defs => ", ".intercalate (defs.map fun o => o.2.defText) ++ " = "

private def arguments (i : Instr) : String :=
  match i.operands.filterMap Operand.text? with
  | [] => ""
  | args => " " ++ ", ".intercalate args

def text (i : Instr) : String := i.written ++ i.opcode ++ i.arguments

end Instr

end Precedence
