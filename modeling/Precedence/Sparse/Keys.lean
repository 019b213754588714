import Precedence.Fault

/-!
Sets of small numbers that are cheap to empty. The members stand in `dense`; `slots` gives each
possible member the place where it would stand. A slot is believed only when the member found there
points back, so emptying the set leaves the slots as they are.
-/
namespace Precedence

structure SparseKeys where
  slots : Array Nat := #[]
  dense : Array Nat := #[]
deriving Inhabited

namespace SparseKeys

/-- Members are numbers below this one. -/
def limit (s : SparseKeys) : Nat := s.slots.size

def size (s : SparseKeys) : Nat := s.dense.size

/-- The members in order of insertion, as far as no removal has moved one. -/
def toList (s : SparseKeys) : List Nat := s.dense.toList

def isEmpty (s : SparseKeys) : Bool := s.dense.isEmpty

/-- Makes room for numbers below `n`, which must be few enough to have slots; the room is never given
back. -/
def reserve (s : SparseKeys) (n : Nat) : SparseKeys :=
  { s with slots := s.slots ++ Array.replicate (n - s.slots.size) 0 }

/-- Makes room for numbers below any `n` if slots of four bytes can be had for all of them. -/
def grow (s : SparseKeys) (n : Nat) : Except Fault SparseKeys := do
  checkRoom n 4
  return s.reserve n

/-- The place where a member stands. -/
def place? (s : SparseKeys) (key : Nat) : Option Nat :=
  s.slots[key]?.filter fun slot => s.dense[slot]? == some key

def contains (s : SparseKeys) (key : Nat) : Bool := (s.place? key).isSome

/-- Adds a number; the answer tells whether it is new. -/
def insert (s : SparseKeys) (key : Nat) : Except Fault (SparseKeys × Bool) :=
  if key < s.limit then
    if s.contains key then .ok (s, false)
    else .ok ({ slots := s.slots.set! key s.dense.size, dense := s.dense.push key }, true)
  else .error (.keyOutsideUniverse key s.limit)

/-- Takes a number out and moves the last member to its place. -/
def erase (s : SparseKeys) (key : Nat) : SparseKeys :=
  match s.place? key, s.dense.back? with
  | some slot, some last =>
      if last = key then { s with dense := s.dense.pop }
      else { slots := s.slots.set! last slot, dense := (s.dense.set! slot last).pop }
  | _, _ => s

def clear (s : SparseKeys) : SparseKeys := { s with dense := #[] }

end SparseKeys

end Precedence
