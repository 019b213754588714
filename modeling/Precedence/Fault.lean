import Precedence.Machine.Text
import Precedence.Graph.Node
import Precedence.Region

/-!
Faults end a computation: a caller broke a promise, or a number left its range. They are kept as
causes; the wording of each is in `Fault.message`. Numbers have the widths that a machine gives
them, and arithmetic that can leave a width goes through the checked operations below.
-/
namespace Precedence

inductive Fault where
  /-- a position past the end of a sequence -/
  | indexOutOfBounds
  /-- a number outside its width -/
  | arithmeticOverflow
  /-- no entry under a key that must have one -/
  | missingKey
  /-- more room asked for than can be addressed -/
  | capacityOverflow
  | blockNotFound (block : BlockId)
  | notVirtual (reg : Reg)
  | virtualIndexOverflow
  | notARegister (pos : Nat) (opcode : String) (found : Operand)
  | keyOutsideUniverse (key limit : Nat)
  | registerUntracked (reg : Reg) (limit : Nat)
  | registerOutsideFile (reg : Reg)
  | overlapOutsideFile (a b : Reg)
  | selfDependence (node : NodeId)
  | exitAsPredecessor
  | exitHasNoIndex
  | noInstruction (node : NodeId)
  | regionOutOfRange (region : Region) (size : Nat)
  | notStarted
  | unschedulable (instr : Instr)
  | virtualAfterAllocation (reg : Reg)
  | staleLoopReads
  | headerOutsideLoop (header : BlockId)
  | headerUnreachable (header : BlockId)
deriving DecidableEq

namespace Fault

/-- The report of a fault; the first three have none. -/
def message : Fault → Option String
  | indexOutOfBounds | arithmeticOverflow | missingKey => none
  | capacityOverflow => some "capacity overflow"
  | blockNotFound b => some ("Block BlockId(" ++ toString b.number ++ ") not found")
  | notVirtual r => some (r.text ++ " is not a virtual register")
  | virtualIndexOverflow => some "virtual register index overflow"
  | notARegister pos opcode found =>
      some ("operand " ++ toString pos ++ " of " ++ opcode ++ " is not a register: "
        ++ found.longText)
  | keyOutsideUniverse key limit =>
      some ("key " ++ toString key ++ " outside universe of " ++ toString limit)
  | registerUntracked r limit =>
      some ("register " ++ r.text ++ " outside tracked range of " ++ toString limit)
  | registerOutsideFile r => some ("register " ++ r.text ++ " outside the register file")
  | overlapOutsideFile a b =>
      some ("overlap between " ++ a.text ++ " and " ++ b.text ++ " outside the register file")
  | selfDependence n => some ("self dependence on " ++ n.text)
  | exitAsPredecessor => some "the exit node cannot be a predecessor"
  | exitHasNoIndex => some "the exit node has no arena index"
  | noInstruction n => some (n.text ++ " has no instruction")
  | regionOutOfRange r size =>
      some ("region " ++ r.text ++ " out of range for " ++ toString size ++ " instructions")
  | notStarted => some "build called before initialize"
  | unschedulable i => some ("cannot schedule `" ++ i.text ++ "` inside a region")
  | virtualAfterAllocation r =>
      some ("virtual register " ++ r.text ++ " after register allocation")
  | staleLoopReads => some "stale loop dependencies"
  | headerOutsideLoop b => some ("loop does not contain its header " ++ b.text)
  | headerUnreachable b =>
      some ("loop header " ++ b.text ++ " is not in the dominator tree")

end Fault

/-- The sum of two latencies, which are 32 bits wide. -/
def addLatency (a b : Nat) : Except Fault Nat :=
  if a + b < 0x100000000 then .ok (a + b) else .error .arithmeticOverflow

/-- The difference of two counts, which are never negative. -/
def subCount (a b : Nat) : Except Fault Nat :=
  if b ≤ a then .ok (a - b) else .error .arithmeticOverflow

/-- The sum of two offsets, which are signed and 64 bits wide. -/
def addOffset (a b : Int) : Except Fault Int :=
  if -0x8000000000000000 ≤ a + b ∧ a + b < 0x8000000000000000 then .ok (a + b)
  else .error .arithmeticOverflow

/-- Room for entries of `width` bytes each: all of them together have to stay below 2^63 bytes. -/
def checkRoom (entries width : Nat) : Except Fault Unit :=
  if entries * width < 0x8000000000000000 then .ok () else .error .capacityOverflow

/-- The number of instructions of a region. -/
def Region.size (r : Region) : Except Fault Nat := subCount r.stop r.start

end Precedence
