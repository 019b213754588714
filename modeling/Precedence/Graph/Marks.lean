import Precedence.Graph.Node

/-!
Marks on the units of a graph, by which a search tells those it has met from those it has not. The
exit never carries a mark and is never fresh.
-/
namespace Precedence

structure Marks where
  flags : Array Bool

namespace Marks

/-- No mark yet on any of `n` units. -/
def blank (n : Nat) : Marks := ⟨Array.replicate n false⟩

/-- The node is a unit without a mark. -/
def isFresh (m : Marks) : NodeId → Bool
  | .exit => false
  | .unit i => m.flags[i]? == some false

def mark (m : Marks) : NodeId → Marks
  | .exit => m
  | .unit i => ⟨m.flags.setIfInBounds i true⟩

/-- The number of units without a mark. -/
def freshCount (m : Marks) : Nat := m.flags.count false

theorem freshCount_mark {m : Marks} {id : NodeId} (h : m.isFresh id) :
    (m.mark id).freshCount + 1 = m.freshCount := by
  cases id with
  | exit => simp [isFresh] at h
  | unit i =>
    simp only [isFresh, beq_iff_eq, Array.getElem?_eq_some_iff] at h
    obtain ⟨hi, hfalse⟩ := h
    have hpos : 0 < m.flags.count false := by
      rw [Array.count_pos_iff]
      exact Array.mem_of_getElem hfalse
    simp [freshCount, mark, Array.setIfInBounds, hi, Array.count_set, hfalse]
    omega

end Marks

end Precedence
