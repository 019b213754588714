import Precedence.Build.Latency
import Precedence.Sparse.Tracker

/-!
Edges for registers. The walk goes from the bottom of a region to its top; for every register it
knows the later nodes that an earlier instruction still meets. A write meets the reads and writes
below it and then hides them, a read meets the writes below it. For a virtual register only the
nearest write below and the reads above that one are known.
-/
namespace Precedence

/-- What the walk knows about registers. -/
structure RegState where
  tracker : Tracker := {}
  /-- the nearest write below -/
  virtualDefs : SparseMap (Option NodeId) := {}
  /-- the reads below that no write hides, with their operands -/
  virtualUses : SparseMap (List (NodeId × Nat)) := {}
deriving Inhabited

namespace RegState

def clear (r : RegState) : RegState :=
  ⟨r.tracker.clear, r.virtualDefs.clear, r.virtualUses.clear⟩

/-- Makes room for physical and virtual registers. -/
def reserve (r : RegState) (physical virtual : Nat) : RegState :=
  ⟨r.tracker.reserve physical, r.virtualDefs.reserve virtual, r.virtualUses.reserve virtual⟩

end RegState

/-- The part of a target's registers that an operand names. -/
inductive RegClass where
  | physical
  | virtual (index : Nat)
  /-- a number that the target has no register for -/
  | unknown

/-- Virtual registers are a mistake once registers have been allocated. -/
def Setup.classify (s : Setup) (r : Reg) : Except Fault RegClass :=
  if s.regs.isPhysical r then .ok .physical
  else if r.isVirtual then
    if s.options.afterAllocation then .error (.virtualAfterAllocation r)
    else .ok (.virtual r.virtualPosition)
  else .ok .unknown

/-! Physical registers -/

/-- An output edge from operand `o` of `i`, at `pos`, to one later write of `shared`. Two dead writes
need no order. -/
def linkWrite (s : Setup) (b : Block) (su : NodeId) (i : Instr) (pos : Nat) (o : RegOperand)
    (shared : Reg) (d : Draft) (later : NodeId) : Except Fault Draft := do
  if later = su ∨ later = .exit then
    return d
  match ← d.graph.instr later b with
  | none => return d
  | some j =>
      if o.isDead && j.defIsDead shared then return d
      else d.withDep later (.output su (s.timing.outputLatency i pos j) shared)

/-- Output edges to all writes below of the registers in `shared`. -/
def linkWrites (s : Setup) (b : Block) (su : NodeId) (i : Instr) (pos : Nat) (o : RegOperand)
    (t : Tracker) (shared : List Reg) (d : Draft) : Except Fault Draft :=
  shared.foldlM (fun d r => do
    let later ← t.defs.get r
    later.foldlM (linkWrite s b su i pos o r) d) d

/-- The latency of a value from `su` that `reader` finds at operand `pos`, before refinement. -/
def valueLatency (s : Setup) (g : Graph) (su : NodeId) (reader : Option (Instr × Nat)) :
    Except Fault Nat := do
  let n ← g.node su
  match reader with
  | none => return n.latency
  | some (j, pos) =>
      let o ← j.regOperandAt pos
      if o.isAddress && j.accessesMemory then addLatency n.latency s.addressLatency
      else return n.latency

/-- A data edge from operand `pos` of `su` to one later read of `shared`. -/
def linkRead (s : Setup) (reads : LoopReads) (b : Block) (su : NodeId) (pos : Nat) (shared : Reg)
    (d : Draft) (later : NodeId) : Except Fault Draft := do
  if later = su then
    return d
  let j ← if later = .exit then pure none else d.graph.instr later b
  let reader := j.bind fun j => (j.findUse shared).map fun pos' => (j, pos')
  let latency ← valueLatency s d.graph su reader
  d.addValue s reads su later (.data su latency shared (some pos) (reader.map Prod.snd))

/-- Data edges to all reads below of the registers in `shared`. -/
def linkReads (s : Setup) (reads : LoopReads) (b : Block) (su : NodeId) (pos : Nat) (t : Tracker)
    (shared : List Reg) (d : Draft) : Except Fault Draft :=
  shared.foldlM (fun d r => do
    let later ← t.uses.get r
    later.foldlM (linkRead s reads b su pos r) d) d

/-- The calls at the end of a list taken off. -/
def dropCalls (g : Graph) (nodes : List NodeId) : List NodeId :=
  (nodes.reverse.dropWhile fun n =>
    match n with
    | .exit => false
    | .unit i => (g.nodes[i]?.map Node.isCall).getD false).reverse

/-- Earlier instructions see this write in place of the later reads, and in place of the later
writes unless it is dead. Calls are in order anyway, so the last one is enough. -/
def Tracker.hide (t : Tracker) (g : Graph) (su : NodeId) (isCall : Bool) (o : RegOperand) :
    Except Fault Tracker := do
  let uses ← t.uses.erase o.reg
  let defs ← if o.isDead then pure t.defs else t.defs.erase o.reg
  let defs ← defs.alter o.reg fun nodes =>
    (if isCall then dropCalls g nodes else nodes) ++ [su]
  return { defs, uses }

/-- Meets everything below that touches the storage of a written register, then hides it. -/
def writePhysical (s : Setup) (reads : LoopReads) (b : Block) (su : NodeId) (i : Instr) (pos : Nat)
    (o : RegOperand) (t : Tracker) (d : Draft) : Except Fault (Tracker × Draft) := do
  let shared ← s.regs.overlaps o.reg
  let d ← linkWrites s b su i pos o t shared d
  let d ← linkReads s reads b su pos t shared d
  let t ← t.hide d.graph su i.isCall o
  return (t, d)

/-- An anti edge from a read in `su` to one later write of `shared`. -/
def linkOverwrite (su : NodeId) (shared : Reg) (d : Draft) (later : NodeId) : Except Fault Draft :=
  if later = su ∨ later = .exit then .ok d else d.withDep later (.anti su shared)

/-- Anti edges to all writes below of the registers in `shared`. -/
def linkOverwrites (su : NodeId) (t : Tracker) (shared : List Reg) (d : Draft) :
    Except Fault Draft :=
  shared.foldlM (fun d r => do
    let later ← t.defs.get r
    later.foldlM (linkOverwrite su r) d) d

/-- Meets the writes below of everything that shares the storage of a register that is read. -/
def readPhysical (s : Setup) (su : NodeId) (reg : Reg) (t : Tracker) (d : Draft) :
    Except Fault (Tracker × Draft) := do
  let shared ← s.regs.overlaps reg
  let d ← linkOverwrites su t shared d
  let t ← t.recordUse reg su
  return (t, d)

/-! Virtual registers -/

/-- A data edge from operand `pos` of `su` to a read that was waiting for a write of `reg`. -/
def linkWaiting (s : Setup) (reads : LoopReads) (su : NodeId) (pos : Nat) (reg : Reg) (d : Draft)
    (waiting : NodeId × Nat) : Except Fault Draft := do
  if waiting.1 = su then
    return d
  let n ← d.graph.node su
  d.addValue s reads su waiting.1 (.data su n.latency reg (some pos) (some waiting.2))

/-- An output edge from operand `pos` of `i` to the nearest write below. -/
def linkNearest (s : Setup) (b : Block) (su : NodeId) (i : Instr) (pos : Nat) (reg : Reg)
    (nearest : Option NodeId) (d : Draft) : Except Fault Draft := do
  match nearest with
  | none => return d
  | some later =>
      if later = su then
        return d
      match ← d.graph.instr later b with
      | none => return d
      | some j => d.withDep later (.output su (s.timing.outputLatency i pos j) reg)

/-- Meets the waiting reads and the nearest write below, then takes the place of both. -/
def writeVirtual (s : Setup) (reads : LoopReads) (b : Block) (su : NodeId) (i : Instr) (pos : Nat)
    (reg : Reg) (index : Nat) (r : RegState) (d : Draft) : Except Fault (RegState × Draft) := do
  let (waiting, uses) ← r.virtualUses.fetch index
  let d ← waiting.foldlM (linkWaiting s reads su pos reg) d
  let uses ← uses.set index []
  let (nearest, defs) ← r.virtualDefs.fetch index
  let d ← linkNearest s b su i pos reg nearest d
  let defs ← defs.set index (some su)
  return ({ r with virtualDefs := defs, virtualUses := uses }, d)

/-- Meets the nearest write below, then waits for one above. -/
def readVirtual (su : NodeId) (pos : Nat) (reg : Reg) (index : Nat) (r : RegState) (d : Draft) :
    Except Fault (RegState × Draft) := do
  let d ← (r.virtualDefs.get? index).join.toList.foldlM (linkOverwrite su reg) d
  let uses ← r.virtualUses.alter index fun waiting => waiting ++ [(su, pos)]
  return ({ r with virtualUses := uses }, d)

/-! One instruction -/

def writeOperand (s : Setup) (reads : LoopReads) (b : Block) (su : NodeId) (i : Instr) (pos : Nat)
    (o : RegOperand) (r : RegState) (d : Draft) : Except Fault (RegState × Draft) := do
  match ← s.classify o.reg with
  | .physical =>
      let (tracker, d) ← writePhysical s reads b su i pos o r.tracker d
      return ({ r with tracker }, d)
  | .virtual index => writeVirtual s reads b su i pos o.reg index r d
  | .unknown => return (r, d)

def readOperand (s : Setup) (su : NodeId) (pos : Nat) (o : RegOperand) (r : RegState) (d : Draft) :
    Except Fault (RegState × Draft) := do
  match ← s.classify o.reg with
  | .physical =>
      let (tracker, d) ← readPhysical s su o.reg r.tracker d
      return ({ r with tracker }, d)
  | .virtual index => readVirtual su pos o.reg index r d
  | .unknown => return (r, d)

/-- Edges for all register operands of an instruction, its writes first. -/
def addRegisterDeps (s : Setup) (reads : LoopReads) (b : Block) (su : NodeId) (i : Instr)
    (r : RegState) (d : Draft) : Except Fault (RegState × Draft) := do
  let (r, d) ← i.defOperands.foldlM
    (fun (r, d) (pos, o) => writeOperand s reads b su i pos o r d) (r, d)
  i.useOperands.foldlM (fun (r, d) (pos, o) => readOperand s su pos o r d) (r, d)

/-! The exit -/

def RegState.recordExitRead (r : RegState) (reg : Reg) : Except Fault RegState := do
  let nodes ← r.tracker.uses.get reg
  if nodes.contains .exit then
    return r
  else
    let tracker ← r.tracker.recordUse reg .exit
    return { r with tracker }

/-- The exit reads what the boundary instruction reads. -/
def readAtBoundary (s : Setup) (i : Instr) (r : RegState) : Except Fault RegState :=
  i.useOperands.foldlM (fun r (pos, o) => do
    match ← s.classify o.reg with
    | .physical => r.recordExitRead o.reg
    | .virtual index =>
        let uses ← r.virtualUses.alter index fun waiting => waiting ++ [(.exit, pos)]
        return { r with virtualUses := uses }
    | .unknown => return r) r

/-- The exit reads what the successors of a block expect. -/
def readAtSuccessors (s : Setup) (b : Block) (r : RegState) : Except Fault RegState :=
  b.successors.foldlM (fun r id => do
    let succ ← s.func.block id
    succ.liveIns.foldlM (fun r reg =>
      if s.regs.isPhysical reg then r.recordExitRead reg else pure r) r) r

/-- What the code behind a region reads. A boundary that is a call reads its own operands only. -/
def readAtExit (s : Setup) (b : Block) (boundary : Option Instr) (r : RegState) :
    Except Fault RegState := do
  let r ← match boundary with
    | none => pure r
    | some i => readAtBoundary s i r
  if boundary.any Instr.isCall then return r else readAtSuccessors s b r

end Precedence
