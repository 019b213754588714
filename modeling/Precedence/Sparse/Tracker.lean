import Precedence.Sparse.Map
import Precedence.Graph.Node

/-!
For every physical register, the nodes met so far that write it and those that read it.
-/
namespace Precedence

/-- A list of nodes for each register below a limit. -/
structure RegNodes where
  map : SparseMap (List NodeId) := {}
deriving Inhabited

namespace RegNodes

def limit (m : RegNodes) : Nat := m.map.limit

def reserve (m : RegNodes) (n : Nat) : RegNodes := ⟨m.map.reserve n⟩

/-- Makes room for registers below any `n` if slots can be had for all of them. -/
def grow (m : RegNodes) (n : Nat) : Except Fault RegNodes := do
  let map ← m.map.grow n
  return ⟨map⟩

/-- The key of a register below the limit. -/
def key (m : RegNodes) (r : Reg) : Except Fault Nat :=
  if r.number < m.limit then .ok r.number else .error (.registerUntracked r m.limit)

/-- The nodes recorded for a register, the oldest first. -/
def get (m : RegNodes) (r : Reg) : Except Fault (List NodeId) := do
  let key ← m.key r
  return (m.map.get? key).getD []

/-- Changes the list of a register, which is then registered even if it is empty. -/
def alter (m : RegNodes) (r : Reg) (change : List NodeId → List NodeId) : Except Fault RegNodes := do
  let key ← m.key r
  let map ← m.map.alter key change
  return ⟨map⟩

def push (m : RegNodes) (r : Reg) (n : NodeId) : Except Fault RegNodes :=
  m.alter r fun nodes => nodes ++ [n]

def contains (m : RegNodes) (r : Reg) : Except Fault Bool := do
  let key ← m.key r
  return m.map.contains key

def erase (m : RegNodes) (r : Reg) : Except Fault RegNodes := do
  let key ← m.key r
  return ⟨m.map.erase key⟩

def clear (m : RegNodes) : RegNodes := ⟨m.map.clear⟩

def isEmpty (m : RegNodes) : Bool := m.map.isEmpty

/-- The registers recorded, each with its nodes. -/
def toList (m : RegNodes) : List (Reg × List NodeId) :=
  m.map.toList.map fun (key, nodes) => (⟨key⟩, nodes)

end RegNodes

structure Tracker where
  defs : RegNodes := {}
  uses : RegNodes := {}
deriving Inhabited

namespace Tracker

def reserve (t : Tracker) (n : Nat) : Tracker := ⟨t.defs.reserve n, t.uses.reserve n⟩

/-- Makes room for registers below any `n` if slots can be had for all of them. -/
def grow (t : Tracker) (n : Nat) : Except Fault Tracker := do
  let defs ← t.defs.grow n
  let uses ← t.uses.grow n
  return ⟨defs, uses⟩

def recordDef (t : Tracker) (r : Reg) (n : NodeId) : Except Fault Tracker := do
  let defs ← t.defs.push r n
  return { t with defs }

def recordUse (t : Tracker) (r : Reg) (n : NodeId) : Except Fault Tracker := do
  let uses ← t.uses.push r n
  return { t with uses }

def clear (t : Tracker) : Tracker := ⟨t.defs.clear, t.uses.clear⟩

def isEmpty (t : Tracker) : Bool := t.defs.isEmpty && t.uses.isEmpty

/-- Every register with recorded writes, then every one with recorded reads; the flag tells the two
apart. -/
def toList (t : Tracker) : List (Reg × List NodeId × Bool) :=
  (t.defs.toList.map fun (r, nodes) => (r, nodes, true))
    ++ t.uses.toList.map fun (r, nodes) => (r, nodes, false)

end Tracker

end Precedence
