import Precedence.Machine.Reg

/-!
Sets of registers, held as strictly ascending lists, so that equal sets are equal values.
-/
namespace Precedence

structure RegSet where
  regs : List Reg
  ascending : regs.Pairwise fun r s => r.number < s.number
deriving DecidableEq

namespace RegSet

def empty : RegSet := ⟨[], List.Pairwise.nil⟩

instance : Inhabited RegSet := ⟨empty⟩

/-- Puts a register into an ascending list. -/
def insertReg (r : Reg) : List Reg → List Reg
  | [] => [r]
  | s :: rest =>
      if r.number < s.number then r :: s :: rest
      else if r = s then s :: rest
      else s :: insertReg r rest

theorem mem_insertReg {r s : Reg} {regs : List Reg} :
    s ∈ insertReg r regs ↔ s = r ∨ s ∈ regs := by
  induction regs with
  | nil => simp [insertReg]
  | cons t rest ih =>
    rw [insertReg]
    split
    · simp
    · split
      · rename_i h
        simp [h]
      · simp only [List.mem_cons, ih, or_left_comm]

theorem ascending_insertReg {r : Reg} {regs : List Reg}
    (h : regs.Pairwise fun r s => r.number < s.number) :
    (insertReg r regs).Pairwise fun r s => r.number < s.number := by
  induction regs with
  | nil => simp [insertReg]
  | cons t rest ih =>
    rw [List.pairwise_cons] at h
    rw [insertReg]
    split
    · rename_i hr
      refine List.Pairwise.cons ?_ (List.pairwise_cons.2 h)
      intro s hs
      rcases List.mem_cons.1 hs with rfl | hs
      · exact hr
      · exact Nat.lt_trans hr (h.1 s hs)
    · split
      · exact List.pairwise_cons.2 h
      · rename_i hr hne
        refine List.Pairwise.cons ?_ (ih h.2)
        intro s hs
        rcases mem_insertReg.1 hs with rfl | hs
        · have hn : t.number ≠ s.number := fun e => hne (by cases s; cases t; simp_all)
          omega
        · exact h.1 s hs

def insert (r : Reg) (s : RegSet) : RegSet := ⟨insertReg r s.regs, ascending_insertReg s.ascending⟩

def erase (s : RegSet) (r : Reg) : RegSet := ⟨s.regs.filter (· != r), s.ascending.filter _⟩

/-- Merges two ascending lists. -/
def unionRegs : List Reg → List Reg → List Reg
  | [], regs => regs
  | regs, [] => regs
  | r :: regs, s :: regs' =>
      if r.number < s.number then r :: unionRegs regs (s :: regs')
      else if s.number < r.number then s :: unionRegs (r :: regs) regs'
      else r :: unionRegs regs regs'

theorem mem_unionRegs {r : Reg} {regs regs' : List Reg} :
    r ∈ unionRegs regs regs' ↔ r ∈ regs ∨ r ∈ regs' := by
  fun_induction unionRegs regs regs' with
  | case1 => simp
  | case2 => simp
  | case3 s regs t regs' _ ih => simp only [List.mem_cons, ih, or_assoc]
  | case4 s regs t regs' _ _ ih => simp only [List.mem_cons, ih, or_left_comm]
  | case5 s regs t regs' hs ht ih =>
    have h : s = t := by
      cases s
      cases t
      simp only [Reg.mk.injEq] at *
      omega
    simp only [List.mem_cons, ih, h]
    grind

theorem ascending_unionRegs {regs regs' : List Reg}
    (h : regs.Pairwise fun r s => r.number < s.number)
    (h' : regs'.Pairwise fun r s => r.number < s.number) :
    (unionRegs regs regs').Pairwise fun r s => r.number < s.number := by
  fun_induction unionRegs regs regs' with
  | case1 => exact h'
  | case2 => exact h
  | case3 s regs t regs' hst ih =>
    rw [List.pairwise_cons] at h
    refine List.Pairwise.cons ?_ (ih h.2 h')
    intro u hu
    rcases mem_unionRegs.1 hu with hu | hu
    · exact h.1 u hu
    · rcases List.mem_cons.1 hu with rfl | hu
      · exact hst
      · exact Nat.lt_trans hst ((List.pairwise_cons.1 h').1 u hu)
  | case4 s regs t regs' _ hts ih =>
    rw [List.pairwise_cons] at h'
    refine List.Pairwise.cons ?_ (ih h h'.2)
    intro u hu
    rcases mem_unionRegs.1 hu with hu | hu
    · rcases List.mem_cons.1 hu with rfl | hu
      · exact hts
      · exact Nat.lt_trans hts ((List.pairwise_cons.1 h).1 u hu)
    · exact h'.1 u hu
  | case5 s regs t regs' hs ht ih =>
    rw [List.pairwise_cons] at h h'
    refine List.Pairwise.cons ?_ (ih h.2 h'.2)
    intro u hu
    rcases mem_unionRegs.1 hu with hu | hu
    · exact h.1 u hu
    · have := h'.1 u hu
      omega

def union (s t : RegSet) : RegSet :=
  ⟨unionRegs s.regs t.regs, ascending_unionRegs s.ascending t.ascending⟩

end RegSet

end Precedence
