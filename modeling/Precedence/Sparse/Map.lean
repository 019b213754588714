import Precedence.Sparse.Keys

/-!
Finite maps from small numbers, cheap to empty. Values stay in place when their key goes; a key
that comes back finds the default value all the same.
-/
namespace Precedence

structure SparseMap (α : Type) where
  keys : SparseKeys := {}
  values : Array α := #[]
deriving Inhabited

namespace SparseMap

variable {α : Type}

def limit (m : SparseMap α) : Nat := m.keys.limit

def isEmpty (m : SparseMap α) : Bool := m.keys.isEmpty

def size (m : SparseMap α) : Nat := m.keys.size

def contains (m : SparseMap α) (key : Nat) : Bool := m.keys.contains key

def get? (m : SparseMap α) (key : Nat) : Option α :=
  if m.contains key then m.values[key]? else none

/-- Changes the value of a key that has one. -/
def modify (m : SparseMap α) (key : Nat) (change : α → α) : SparseMap α :=
  if m.contains key then { m with values := m.values.modify key change } else m

variable [Inhabited α]

/-- The values, with places for all keys below `n`. -/
def widened (m : SparseMap α) (n : Nat) : Array α :=
  m.values ++ Array.replicate (n - m.values.size) default

/-- Makes room for keys below `n`, which must be few enough to have slots. -/
def reserve (m : SparseMap α) (n : Nat) : SparseMap α := ⟨m.keys.reserve n, m.widened n⟩

/-- Makes room for keys below any `n` if slots can be had for all of them. -/
def grow (m : SparseMap α) (n : Nat) : Except Fault (SparseMap α) := do
  let keys ← m.keys.grow n
  return ⟨keys, m.widened n⟩

/-- The keys with their values, in the order of the keys' insertion. -/
def toList (m : SparseMap α) : List (Nat × α) :=
  m.keys.toList.map fun key => (key, m.values[key]?.getD default)

/-- Gives a key the default value unless it has one already. -/
def touch (m : SparseMap α) (key : Nat) : Except Fault (SparseMap α) := do
  let (keys, new) ← m.keys.insert key
  return { keys, values := if new then m.values.set! key default else m.values }

/-- Changes the value of a key, the default value if it has none. -/
def alter (m : SparseMap α) (key : Nat) (change : α → α) : Except Fault (SparseMap α) := do
  let m ← m.touch key
  return { m with values := m.values.modify key change }

/-- The value of a key, which is given the default value if it has none. -/
def fetch (m : SparseMap α) (key : Nat) : Except Fault (α × SparseMap α) := do
  let m ← m.touch key
  return ((m.get? key).getD default, m)

def set (m : SparseMap α) (key : Nat) (value : α) : Except Fault (SparseMap α) :=
  m.alter key fun _ => value

def erase (m : SparseMap α) (key : Nat) : SparseMap α :=
  if m.contains key then
    { keys := m.keys.erase key, values := m.values.set! key default }
  else m

/-- Forgets all keys. -/
def clear (m : SparseMap α) : SparseMap α where
  keys := m.keys.clear
  values := m.keys.toList.foldl (fun values key => values.set! key default) m.values

end SparseMap

end Precedence
