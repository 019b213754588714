import Precedence.Fault

/-!
What a target says about its registers: how many there are, which numbers are physical, and which
registers share storage. `RegisterFile` answers from tables; other targets fill in
`RegisterInfo` as they like, and overlap need not be transitive.
-/
namespace Precedence

structure RegisterInfo where
  /-- physical register numbers lie below this one -/
  count : Nat
  isPhysical : Reg → Bool
  /-- every register that shares storage with the given one, itself included -/
  overlaps : Reg → Except Fault (List Reg)
  name : Reg → String := Reg.text

/-- Any register that is present and not virtual. -/
def Reg.isPlain (r : Reg) : Bool := !r.isNone && !r.isVirtual

/-- A register file with declared overlaps and names. -/
structure RegisterFile where
  count : Nat
  /-- the pairs declared to share storage, in order -/
  shared : List (Reg × Reg) := []
  names : List (Reg × String) := []
  shared_lt : ∀ p ∈ shared, p.1.number < count ∧ p.2.number < count := by simp

namespace RegisterFile

/-- `n` registers, each overlapping only itself. The file keeps a list of 24 bytes for each. -/
def ofSize (n : Nat) : Except Fault RegisterFile := do
  checkRoom n 24
  return { count := n }

/-- Declares that two registers share storage. -/
def addOverlap (f : RegisterFile) (a b : Reg) : Except Fault RegisterFile :=
  if h : a.number < f.count ∧ b.number < f.count then
    if a = b then .ok f
    else
      .ok { f with
        shared := f.shared ++ [(a, b)]
        shared_lt := by
          intro p hp
          rcases List.mem_append.1 hp with hp | hp
          · exact f.shared_lt p hp
          · rw [List.mem_singleton.1 hp]
            exact h }
  else .error (.overlapOutsideFile a b)

def withName (f : RegisterFile) (r : Reg) (name : String) : RegisterFile :=
  { f with names := (r, name) :: f.names }

/-- What a declared pair says to share storage with `r`. -/
def partner (r : Reg) (p : Reg × Reg) : Option Reg :=
  if p.1 = r then some p.2 else if p.2 = r then some p.1 else none

/-- The registers that share storage with `r`, itself first and the others as they were declared. -/
def overlaps (f : RegisterFile) (r : Reg) : Except Fault (List Reg) :=
  if r.number < f.count then .ok (r :: (f.shared.filterMap (partner r)).eraseDups)
  else .error (.registerOutsideFile r)

/-- The name given last to a register, or its number. -/
def name (f : RegisterFile) (r : Reg) : String := (f.names.lookup r).getD r.text

def info (f : RegisterFile) : RegisterInfo where
  count := f.count
  isPhysical := Reg.isPlain
  overlaps := f.overlaps
  name := f.name

end RegisterFile

/-- The same registers, but those of a list are not physical. -/
def RegisterInfo.excluding (info : RegisterInfo) (regs : List Reg) : RegisterInfo :=
  { info with isPhysical := fun r => info.isPhysical r && !regs.contains r }

end Precedence
