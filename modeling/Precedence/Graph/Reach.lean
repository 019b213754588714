import Precedence.Graph.Basic
import Precedence.Graph.Marks

/-!
Whether a path of edges leads from one node to another. The search keeps the edges still to look
at, the units found but not yet opened, and the units not found so far; every step uses up an edge
or a unit, so cycles do it no harm.
-/
namespace Precedence.Graph

/-- Looks for `target` among the ends of `deps` and everything that can be reached from the units of
`found`; the marks are on the units that the search has met. -/
def search (g : Graph) (target : NodeId) : (deps : List Dep) → (found : List Nat) → (met : Marks) →
    Except Fault Bool
  | [], [], _ => .ok false
  | [], i :: found, met =>
      match g.nodes[i]? with
      | some n => search g target n.succs found met
      | none => .error .indexOutOfBounds
  | d :: deps, found, met =>
      if d.node = target then .ok true
      else
        match d.node with
        | .exit => search g target deps found met
        | .unit i =>
            if met.isFresh (.unit i) then search g target deps (i :: found) (met.mark (.unit i))
            else if i < g.nodes.size then search g target deps found met
            else .error .indexOutOfBounds
termination_by deps found met => (met.freshCount + found.length, deps.length)
decreasing_by
  · exact Prod.Lex.left _ _ (by simp)
  · exact Prod.Lex.right _ (by simp)
  · rename_i h
    have hcount := Marks.freshCount_mark h
    simp only [List.length_cons]
    rw [show (met.mark (.unit i)).freshCount + (found.length + 1) = met.freshCount + found.length
      by omega]
    exact Prod.Lex.right _ (by simp)
  · exact Prod.Lex.right _ (by simp)

/-- A path of edges leads from one node to the other; the empty path counts. -/
def reaches (g : Graph) (source target : NodeId) : Except Fault Bool :=
  if source = target then .ok true
  else do
    let n ← g.node source
    g.search target n.succs [] (.blank g.nodes.size)

end Precedence.Graph
