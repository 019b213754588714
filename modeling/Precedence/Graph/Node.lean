import Precedence.Machine.Reg

/-!
Nodes of a precedence graph and the edges between them, each edge as seen from one of its ends.
A node's number is its position in the graph, so nodes carry no name of their own.
-/
namespace Precedence

/-- A node of a graph: the region exit, or a unit numbered in program order. -/
inductive NodeId where
  | exit
  | unit (index : Nat)
deriving DecidableEq, Inhabited

def NodeId.text : NodeId → String
  | .exit => "ExitSU"
  | .unit i => "SU(" ++ toString i ++ ")"

/-- Why one node must precede another. -/
inductive Kind where
  /-- a write, then a read of the value -/
  | data
  /-- a read, then a write over the value -/
  | anti
  /-- a write, then another write -/
  | output
  /-- memory or barrier order -/
  | order
  /-- a preference that no meaning depends on -/
  | artificial
deriving DecidableEq

namespace Kind

def text : Kind → String
  | data => "data"
  | anti => "anti"
  | output => "out"
  | order => "ord"
  | artificial => "art"

def all : List Kind := [data, anti, output, order, artificial]

end Kind

/-- An edge seen from one end; `node` is the other end. -/
structure Dep where
  node : NodeId
  kind : Kind
  latency : Nat := 0
  reg : Option Reg := none
  defOperand : Option Nat := none
  useOperand : Option Nat := none
deriving DecidableEq

namespace Dep

/-- Both edges state the same constraint; latency and operands do not count. -/
def sameConstraint (d e : Dep) : Bool := d.node == e.node && d.kind == e.kind && d.reg == e.reg

/-- The same edge seen from its other end. -/
def facing (d : Dep) (node : NodeId) : Dep := { d with node }

def data (node : NodeId) (latency : Nat) (reg : Reg) (defOperand useOperand : Option Nat) : Dep :=
  { node, kind := .data, latency, reg := some reg, defOperand, useOperand }

def anti (node : NodeId) (reg : Reg) : Dep := { node, kind := .anti, reg := some reg }

def output (node : NodeId) (latency : Nat) (reg : Reg) : Dep :=
  { node, kind := .output, latency, reg := some reg }

def order (node : NodeId) (latency : Nat) : Dep := { node, kind := .order, latency }

def artificial (node : NodeId) : Dep := { node, kind := .artificial }

end Dep

/-- A scheduling unit: the instruction it wraps, if any, with the edges that enter and leave it. -/
structure Node where
  instr : Option Nat := none
  latency : Nat := 0
  isCall : Bool := false
  /-- to be scheduled as early as possible -/
  scheduleHigh : Bool := false
  preds : List Dep := []
  succs : List Dep := []
deriving DecidableEq

end Precedence
