/-!
Register numbers and block names, the two vocabularies that every other module shares. Physical
and virtual registers live in one number space; which of the small numbers a target really has is
not decided here.
-/
namespace Precedence

/-- A register number. Zero names no register, numbers from `Reg.firstVirtual` on are virtual. -/
structure Reg where
  number : Nat
deriving DecidableEq, Inhabited

namespace Reg

/-- The number of virtual register zero. -/
def firstVirtual : Nat := 0x80000000

def isNone (r : Reg) : Bool := r.number == 0

def isVirtual (r : Reg) : Bool := decide (firstVirtual ≤ r.number)

/-- The position of a virtual register among the virtual ones; zero for any other register. -/
def virtualPosition (r : Reg) : Nat := r.number - firstVirtual

/-- Virtual registers print with a percent sign and their position, the others with an `r`. -/
def text (r : Reg) : String :=
  if r.isNone then "noreg"
  else if r.isVirtual then "%" ++ toString r.virtualPosition
  else "r" ++ toString r.number

theorem number_inj {r s : Reg} : r.number = s.number ↔ r = s := by
  cases r
  cases s
  simp

end Reg

/-- The name of a basic block. -/
structure BlockId where
  number : Nat
deriving DecidableEq, Inhabited

theorem BlockId.number_inj {a b : BlockId} : a.number = b.number ↔ a = b := by
  cases a
  cases b
  simp

def BlockId.text (b : BlockId) : String := "bb" ++ toString b.number

end Precedence
