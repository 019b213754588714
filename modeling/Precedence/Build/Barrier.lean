import Precedence.Build.Registers

/-!
Barriers: calls and side effects that nothing describes. A barrier comes before every node down to
the next barrier, and that one takes care of what lies below it. Above a barrier the registers start
afresh: only its own operands and the reads of the exit are still known.
-/
namespace Precedence

structure Barriers where
  /-- the nearest barrier below -/
  last : Option NodeId := none
  /-- the nodes above it -/
  since : List NodeId := []

/-- Puts `su` before several nodes in turn. -/
def Draft.orderBefore (d : Draft) (su : NodeId) (nodes : List NodeId) : Except Fault Draft :=
  nodes.foldlM (fun d n => d.withDep n (.order su 0)) d

namespace Tracker

/-- The registers that the exit reads. -/
def exitReads (t : Tracker) : List Reg :=
  (t.uses.toList.filter fun e => e.2.contains .exit).map Prod.fst

/-- Records the physical operands of an instruction as they stand. -/
def recordOperands (t : Tracker) (s : Setup) (su : NodeId) (i : Instr) : Except Fault Tracker :=
  i.regOperands.foldlM (fun t (_, o) =>
    if !s.regs.isPhysical o.reg then pure t
    else if o.isDef then t.recordDef o.reg su
    else if o.reads then t.recordUse o.reg su
    else pure t) t

/-- Forgets everything but the reads of the exit and the operands of a barrier. -/
def restart (t : Tracker) (s : Setup) (su : NodeId) (i : Instr) : Except Fault Tracker := do
  let kept ← t.exitReads.foldlM (fun kept r => kept.recordUse r .exit) t.clear
  kept.recordOperands s su i

end Tracker

/-- Edges between an instruction and the barriers around it. -/
def addBarrierDeps (s : Setup) (su : NodeId) (i : Instr) (c : Barriers) (t : Tracker) (d : Draft) :
    Except Fault (Barriers × Tracker × Draft) := do
  if i.isBarrier then
    let d ← d.orderBefore su (c.since ++ c.last.toList)
    let t ← t.restart s su i
    return ({ last := some su }, t, d)
  else
    let d ← d.orderBefore su c.last.toList
    return ({ c with since := c.since ++ [su] }, t, d)

end Precedence
