import Precedence.Flow.BlockSet

/-!
What can be reached from some blocks by following a relation between blocks, inside a given set.
-/
namespace Precedence

/-- The blocks of `fresh` that can be reached from those of `todo` through blocks of `fresh`, each
listed once, in the order of their discovery. -/
def spread (next : BlockId → List BlockId) : (todo : List BlockId) → (fresh : BlockSet) → List BlockId
  | [], _ => []
  | b :: todo, fresh =>
      if fresh.contains b then b :: spread next (next b ++ todo) (fresh.erase b)
      else spread next todo fresh
termination_by todo fresh => (fresh.size, todo.length)
decreasing_by
  · rename_i h
    exact Prod.Lex.left _ _ (BlockSet.size_erase_lt h)
  · exact Prod.Lex.right _ (by simp)

end Precedence
