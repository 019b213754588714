import Precedence.Machine.Instr

/-!
Basic blocks and the regions they are cut into. Boundary instructions stay in place; each longest
run of instructions between two of them is a region, and the boundary that ends a region is its
exit.
-/
namespace Precedence

structure Block where
  id : BlockId
  instrs : Array Instr := #[]
  successors : List BlockId := []
  /-- the registers whose values the block expects on entry -/
  liveIns : List Reg := []
deriving DecidableEq

/-- The instructions from `start` up to but not including `stop` of a block. -/
structure Region where
  block : BlockId
  start : Nat
  stop : Nat
deriving DecidableEq

namespace Region

def isEmpty (r : Region) : Bool := r.start == r.stop

def text (r : Region) : String :=
  r.block.text ++ "[" ++ toString r.start ++ ".." ++ toString r.stop ++ ")"

/-- The instruction that ends the region, when the block goes on that far. -/
def exitInstr (r : Region) (b : Block) : Option Instr := b.instrs[r.stop]?

end Region

/-- How far a block has been cut from its end: the regions found so far, and where the piece in front of
them ends. -/
structure Cuts where
  found : List Region := []
  stop : Nat

namespace Block

/-- The region of all instructions, boundaries included. -/
def wholeRegion (b : Block) : Region := ⟨b.id, 0, b.instrs.size⟩

/-- The region between two positions, if it holds anything. -/
def cut (id : BlockId) (start stop : Nat) : List Region :=
  if start < stop then [⟨id, start, stop⟩] else []

/-- Looks at the instruction in front of what has been cut. A boundary begins the piece behind it and ends
the one in front of it. -/
def cutAt (id : BlockId) (e : Instr × Nat) (c : Cuts) : Cuts :=
  if e.1.isBoundary then { found := cut id (e.2 + 1) c.stop ++ c.found, stop := e.2 } else c

/-- The regions of a block in program order, found from the last one to the first, so that each is cut off
at the instruction that ends it; empty ones are left out. -/
def regions (b : Block) : List Region :=
  let c := b.instrs.toList.zipIdx.foldr (cutAt b.id) { stop := b.instrs.size }
  cut b.id 0 c.stop ++ c.found

end Block

end Precedence
