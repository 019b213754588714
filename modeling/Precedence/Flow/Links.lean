/-!
Links from blocks to their immediate dominators, improved pass by pass. Blocks go by their positions
in reverse post-order; the entry stands at position 0 and has no link, and every link leads to an
earlier position, so that climbing along the links comes to an end.
-/
namespace Precedence

structure Links where
  up : Array (Option Nat)
  /-- a link leads to an earlier position -/
  earlier : ∀ i j : Nat, up[i]?.join = some j → j < i
deriving DecidableEq

namespace Links

/-- Nothing is linked yet. -/
def start (size : Nat) : Links where
  up := .replicate size none
  earlier := by
    intro i j h
    rw [Array.getElem?_replicate] at h
    split at h <;> simp at h

def up? (d : Links) (i : Nat) : Option Nat := d.up[i]?.join

/-- The entry needs no link; of any other block something is known once it has one. -/
def knows (d : Links) (i : Nat) : Bool := i == 0 || (d.up? i).isSome

/-- The nearest block above both: of two different ones, the later one climbs. -/
def meet (d : Links) (i j : Nat) : Nat :=
  if i = j then i
  else if j < i then
    match _ : d.up? i with
    | some k => d.meet k j
    | none => j
  else
    match _ : d.up? j with
    | some k => d.meet i k
    | none => i
termination_by i + j
decreasing_by
  · rename_i h
    exact Nat.add_lt_add_right (d.earlier _ _ h) j
  · rename_i h
    exact Nat.add_lt_add_left (d.earlier _ _ h) i

/-- Links a block to an earlier one. -/
def set (d : Links) (i j : Nat) (h : j < i) : Links where
  up := d.up.setIfInBounds i (some j)
  earlier := by
    intro k l hk
    rw [Array.getElem?_setIfInBounds] at hk
    by_cases hik : i = k
    · subst hik
      rw [if_pos rfl] at hk
      split at hk
      · simp only [Option.join_some, Option.some.injEq] at hk
        exact hk ▸ h
      · simp at hk
    · rw [if_neg hik] at hk
      exact d.earlier k l hk

/-- Links a block to the nearest one above all its predecessors of which something is known. -/
def relink (d : Links) (i : Nat) (preds : List Nat) : Links :=
  match preds.filter d.knows with
  | [] => d
  | p :: rest =>
      let j := rest.foldl (fun j p => d.meet p j) p
      if h : j < i then d.set i j h else d

/-- Looks once at every block of a list, which gives their predecessors. -/
def pass (d : Links) (rows : List (Nat × List Nat)) : Links :=
  rows.foldl (fun d row => d.relink row.1 row.2) d

/-- Passes until nothing changes any more, or for `rounds` passes. -/
def settle (rows : List (Nat × List Nat)) : (rounds : Nat) → Links → Links
  | 0, d => d
  | rounds + 1, d =>
      let d' := d.pass rows
      if d' = d then d else settle rows rounds d'

/-- Climbing up from `j` meets `i`. -/
def climbs (d : Links) (i j : Nat) : Bool :=
  match _ : d.up? j with
  | some k => k == i || d.climbs i k
  | none => false
termination_by j
decreasing_by
  rename_i h
  exact d.earlier _ _ h

end Links

end Precedence
