import Precedence.Graph.Node
import Precedence.Machine.Instr

/-!
What a target says about time, in cycles. A model gives every instruction a latency and may know
better for particular operands; `adjust` has the last word on an edge that carries a value.
-/
namespace Precedence

structure Timing where
  instrLatency : Instr → Nat
  /-- from an operand being written to an operand reading it -/
  operandLatency : Instr → Nat → Instr → Nat → Option Nat := fun _ _ _ _ => none
  /-- when an operand is written, for readers outside the region -/
  defCycle : Instr → Nat → Option Nat := fun _ _ => none
  /-- between two writes of one register -/
  outputLatency : Instr → Nat → Instr → Nat := fun _ _ _ => 1
  /-- extra cycles of a value that is used as an address -/
  addressLatency : Nat := 0
  /-- the final form of an edge that carries a value; no reader stands for the region exit -/
  adjust : Instr → Option Instr → Dep → Dep := fun _ _ d => d

/-- Every instruction takes one cycle. -/
def Timing.unit : Timing := { instrLatency := fun _ => 1 }

/-- Latencies by opcode. In each table the last entry made for a key counts. -/
structure TimingTable where
  default : Nat := 1
  latencies : List (String × Nat) := []
  forwarding : List ((String × String) × Nat) := []
  addressLatency : Nat := 0

namespace TimingTable

def withLatency (t : TimingTable) (opcode : String) (latency : Nat) : TimingTable :=
  { t with latencies := (opcode, latency) :: t.latencies }

/-- The result of one opcode reaches an operand of the other in `latency` cycles. -/
def withForwarding (t : TimingTable) (writer reader : String) (latency : Nat) : TimingTable :=
  { t with forwarding := ((writer, reader), latency) :: t.forwarding }

def withAddressLatency (t : TimingTable) (latency : Nat) : TimingTable :=
  { t with addressLatency := latency }

def timing (t : TimingTable) : Timing where
  instrLatency i := (t.latencies.lookup i.opcode).getD t.default
  operandLatency writer _ reader _ := t.forwarding.lookup (writer.opcode, reader.opcode)
  addressLatency := t.addressLatency

end TimingTable

/-- Answers by opcode and operand that go beyond a table; the first row that fits counts. -/
structure TimingRows where
  operand : List ((String × Nat × String × Nat) × Nat) := []
  defCycle : List ((String × Nat) × Nat) := []
  output : List ((String × String) × Nat) := []
  /-- no reading opcode stands for the region exit -/
  adjust : List ((String × Option String) × Nat) := []

/-- A model that looks at the rows first. -/
def Timing.withRows (t : Timing) (rows : TimingRows) : Timing where
  instrLatency := t.instrLatency
  operandLatency writer pos reader pos' :=
    (rows.operand.lookup (writer.opcode, pos, reader.opcode, pos')).or
      (t.operandLatency writer pos reader pos')
  defCycle writer pos := (rows.defCycle.lookup (writer.opcode, pos)).or (t.defCycle writer pos)
  outputLatency writer pos later :=
    (rows.output.lookup (writer.opcode, later.opcode)).getD (t.outputLatency writer pos later)
  addressLatency := t.addressLatency
  adjust writer reader d :=
    match rows.adjust.lookup (writer.opcode, reader.map Instr.opcode) with
    | some latency => { t.adjust writer reader d with latency }
    | none => t.adjust writer reader d

end Precedence
