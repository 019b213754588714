import Mathlib
import Precedence.Proofs.Flow.Dominance

/-!
The order in which blocks are finished, seen along the edges. When a block is finished, every block
that follows it has been met. Either that one is finished already, or it is open, and then the open
blocks lead from it back to the block at hand. So an edge whose end is not finished first closes a
cycle, and where there are no cycles the reverse post-order is a topological one.
-/
namespace Precedence

variable {next : BlockId → List BlockId} {fresh : BlockSet} {stack : List (BlockId × List BlockId)}
  {done later : List BlockId} {a b c s : BlockId}

/-- Steps along a relation between blocks lead from `a` to `b`. -/
def LeadsTo (next : BlockId → List BlockId) (a b : BlockId) : Prop :=
  Relation.ReflTransGen (fun x y => y ∈ next x) a b

/-- What holds all along a depth-first search, with the last finished block at the head of `done`. -/
structure Finishing (next : BlockId → List BlockId) (stack : List (BlockId × List BlockId))
    (fresh : BlockSet) (done : List BlockId) : Prop where
  /-- an open block has found what follows it, but for what it has not looked at -/
  looked : ∀ frame ∈ stack, ∀ b ∈ next frame.1, b ∈ frame.2 ∨ ¬fresh.contains b
  /-- whatever is not fresh any more has been met -/
  met : ∀ a b, b ∈ next a → ¬fresh.contains b → b ∈ stack.map Prod.fst ∨ b ∈ done
  /-- what an open block has not looked at follows it -/
  pending : ∀ frame ∈ stack, ∀ b ∈ frame.2, b ∈ next frame.1
  /-- open blocks lead to those above them -/
  open_leads : (stack.map Prod.fst).Pairwise fun above below => LeadsTo next below above
  /-- what follows a finished block was finished before it or leads back to it -/
  closed : ∀ a ∈ done, ∀ b ∈ next a, [a, b].Sublist done ∨ LeadsTo next b a

namespace Finishing

theorem finish (h : Finishing next ((c, []) :: stack) fresh done) :
    Finishing next stack fresh (c :: done) where
  looked frame hframe := h.looked frame (List.mem_cons_of_mem _ hframe)
  met a b hb hfresh := by
    rcases h.met a b hb hfresh with hopen | hdone
    · rcases List.mem_cons.mp hopen with rfl | hopen
      · exact .inr List.mem_cons_self
      · exact .inl hopen
    · exact .inr (List.mem_cons_of_mem c hdone)
  pending frame hframe := h.pending frame (List.mem_cons_of_mem _ hframe)
  open_leads := (List.pairwise_cons.mp h.open_leads).2
  closed a ha b hb := by
    rcases List.mem_cons.mp ha with rfl | ha
    · have hfresh : ¬fresh.contains b :=
        (h.looked _ List.mem_cons_self b hb).resolve_left List.not_mem_nil
      rcases h.met a b hb hfresh with hopen | hdone
      · right
        rcases List.mem_cons.mp hopen with rfl | hopen
        · exact .refl
        · exact (List.pairwise_cons.mp h.open_leads).1 b hopen
      · left
        exact (List.singleton_sublist.mpr hdone).cons_cons a
    · exact (h.closed a ha b hb).imp_left fun hsub => hsub.trans (List.sublist_cons_self c done)

theorem descend (h : Finishing next ((c, s :: later) :: stack) fresh done) :
    Finishing next ((s, next s) :: (c, later) :: stack) (fresh.erase s) done := by
  have hsc : s ∈ next c := h.pending _ List.mem_cons_self s List.mem_cons_self
  -- what is not fresh any more is `s` or was not fresh before
  have hfresh : ∀ b, ¬(fresh.erase s).contains b → b = s ∨ ¬fresh.contains b := by
    intro b hb
    rw [BlockSet.contains_erase, Bool.and_eq_true, not_and] at hb
    by_cases hbs : b = s
    · exact .inl hbs
    · exact .inr (hb (by simpa using hbs))
  have herase : ∀ b, ¬fresh.contains b → ¬(fresh.erase s).contains b := by
    intro b hb
    rw [BlockSet.contains_erase, Bool.and_eq_true, not_and]
    exact fun _ => hb
  constructor
  · intro frame hframe b hb
    rcases List.mem_cons.mp hframe with rfl | hframe
    · exact .inl hb
    rcases List.mem_cons.mp hframe with rfl | hframe
    · rcases h.looked _ List.mem_cons_self b hb with hlater | hold
      · rcases List.mem_cons.mp hlater with rfl | hlater
        · exact .inr (by simp [BlockSet.contains_erase])
        · exact .inl hlater
      · exact .inr (herase b hold)
    · exact (h.looked frame (List.mem_cons_of_mem _ hframe) b hb).imp_right (herase b)
  · intro a b hb hold
    rcases hfresh b hold with rfl | hold
    · exact .inl List.mem_cons_self
    · exact (h.met a b hb hold).imp_left (List.mem_cons_of_mem s)
  · intro frame hframe b hb
    rcases List.mem_cons.mp hframe with rfl | hframe
    · exact hb
    rcases List.mem_cons.mp hframe with rfl | hframe
    · exact h.pending _ List.mem_cons_self b (List.mem_cons_of_mem s hb)
    · exact h.pending frame (List.mem_cons_of_mem _ hframe) b hb
  · refine List.pairwise_cons.mpr ⟨?_, h.open_leads⟩
    intro below hbelow
    have hbelow' : LeadsTo next below c := by
      rcases List.mem_cons.mp hbelow with rfl | hbelow
      · exact .refl
      · exact (List.pairwise_cons.mp h.open_leads).1 below hbelow
    exact hbelow'.tail hsc
  · exact h.closed

theorem skip (h : Finishing next ((c, s :: later) :: stack) fresh done)
    (hs : ¬fresh.contains s) : Finishing next ((c, later) :: stack) fresh done where
  looked frame hframe b hb := by
    rcases List.mem_cons.mp hframe with rfl | hframe
    · rcases h.looked _ List.mem_cons_self b hb with hlater | hold
      · rcases List.mem_cons.mp hlater with rfl | hlater
        · exact .inr hs
        · exact .inl hlater
      · exact .inr hold
    · exact h.looked frame (List.mem_cons_of_mem _ hframe) b hb
  met := h.met
  pending frame hframe b hb := by
    rcases List.mem_cons.mp hframe with rfl | hframe
    · exact h.pending _ List.mem_cons_self b (List.mem_cons_of_mem s hb)
    · exact h.pending frame (List.mem_cons_of_mem _ hframe) b hb
  open_leads := h.open_leads
  closed := h.closed

/-- In the order of a whole search, what follows a block stands in front of it or leads back to it. -/
theorem closed_finishOrder (h : Finishing next stack fresh done)
    (ha : a ∈ finishOrder next stack fresh done) (hb : b ∈ next a) :
    [b, a].Sublist (finishOrder next stack fresh done) ∨ LeadsTo next b a := by
  fun_induction finishOrder next stack fresh done with
  | case1 fresh done =>
    exact (h.closed a (List.mem_reverse.mp ha) b hb).imp_left fun hsub => by simpa using hsub.reverse
  | case2 c stack fresh done ih => exact ih h.finish ha
  | case3 c s later stack fresh done hs ih => exact ih h.descend ha
  | case4 c s later stack fresh done hs ih => exact ih (h.skip hs) ha

end Finishing

/-- A search starts with one block open and all others fresh. -/
theorem finishing_start {names : List BlockId} {root : BlockId}
    (hinside : ∀ a b, b ∈ next a → b ∈ names) :
    Finishing next [(root, next root)] ((BlockSet.ofList names).erase root) [] where
  looked frame hframe b hb := by
    obtain rfl := List.mem_singleton.mp hframe
    exact .inl hb
  met a b hb hold := by
    rw [BlockSet.contains_erase, BlockSet.contains_ofList, Bool.and_eq_true, not_and] at hold
    by_contra hout
    have hne : b ≠ root := by
      rintro rfl
      exact hout (.inl List.mem_cons_self)
    exact hold (by simpa using hne) (List.contains_iff_mem.mpr (hinside a b hb))
  pending frame hframe b hb := by
    obtain rfl := List.mem_singleton.mp hframe
    exact hb
  open_leads := List.pairwise_singleton _ _
  closed a ha := absurd ha List.not_mem_nil

/-- Along an edge between reached blocks, either its end is finished first or it leads back. -/
theorem Function.HasFlow.finished_or_back {f : Function} {g : FlowGraph} (h : f.HasFlow g)
    (hg : FlowGraph.ofFunction f = .ok g) (ha : f.Reaches a) (hab : f.Edge a b) :
    [b, a].Sublist g.postOrder ∨ ∃ way, Way f.Edge b a way := by
  have hnext : (fun x y : BlockId => y ∈ g.succTable.listAt x.number) = f.Edge := by
    funext x y
    exact propext h.mem_succs
  have hinside : ∀ x y : BlockId, y ∈ g.succTable.listAt x.number → y ∈ g.blocks := by
    intro x y hy
    obtain ⟨-, -, -, -, hhas⟩ := h.mem_succs.mp hy
    exact h.blocks ▸ Function.hasBlock_iff.mp hhas
  have horder := FlowGraph.postOrder_eq h.names h.hasEntry hg
  have hmem : a ∈ g.postOrder := h.mem_postOrder.mpr ha
  rw [horder] at hmem ⊢
  rw [exists_way_iff_reflTransGen, ← hnext]
  exact (finishing_start hinside).closed_finishOrder hmem (h.mem_succs.mpr hab)

namespace Function

variable {f : Function}

/-- Post-order and reverse post-order. The blocks that the entry reaches stand in post-order, once
each and the entry last. Read backwards, every other block has a predecessor in front of it, and so
has the end of every edge, unless it leads back to where the edge begins. Without cycles the reverse
post-order is therefore a topological order. -/
theorem postOrder_exact (hnames : (f.blocks.map Block.id).Nodup) (hentry : f.hasBlock f.entry) :
    ∃ g, FlowGraph.ofFunction f = .ok g ∧
      (g.postOrder.Nodup ∧ ∀ b, b ∈ g.postOrder ↔ f.Reaches b) ∧
      g.postOrder.getLast? = some f.entry ∧ g.reversePostOrder = g.postOrder.reverse ∧
      (∀ b, f.Reaches b → b ≠ f.entry →
        ∃ a, f.Edge a b ∧ [a, b].Sublist g.reversePostOrder) ∧
      (∀ a b, f.Reaches a → f.Edge a b → ¬[b, a].Sublist g.postOrder →
        ∃ way, Way f.Edge b a way) ∧
      ((∀ b, f.Reaches b → ¬Relation.TransGen f.Edge b b) →
        ∀ a b, f.Reaches a → f.Edge a b → [a, b].Sublist g.reversePostOrder) := by
  obtain ⟨g, hg, hflow⟩ := exists_hasFlow hnames hentry
  have hs := hflow.searched
  have hback : ∀ a b, f.Reaches a → f.Edge a b → ¬[b, a].Sublist g.postOrder →
      ∃ way, Way f.Edge b a way :=
    fun a b ha hab hnot => (hflow.finished_or_back hg ha hab).resolve_left hnot
  have hlast : g.postOrder.getLast? = some f.entry := by
    rw [← hflow.entry, ← hs.head, FlowGraph.reversePostOrder, List.head?_reverse]
  have hled : ∀ b, f.Reaches b → b ≠ f.entry →
      ∃ a, f.Edge a b ∧ [a, b].Sublist g.reversePostOrder := by
    intro b hb hne
    obtain ⟨a, hab, hsub⟩ := (hs.led b (hflow.reaches_iff.mpr hb)).resolve_left (hflow.entry ▸ hne)
    exact ⟨a, hflow.arc ▸ hab, hsub⟩
  have htopological : (∀ b, f.Reaches b → ¬Relation.TransGen f.Edge b b) →
      ∀ a b, f.Reaches a → f.Edge a b → [a, b].Sublist g.reversePostOrder := by
    intro hacyclic a b ha hab
    have hfirst : [b, a].Sublist g.postOrder := by
      by_contra hnot
      have hway := exists_way_iff_reflTransGen.mp (hback a b ha hab hnot)
      exact hacyclic a ha (Relation.TransGen.head' hab hway)
    simpa [FlowGraph.reversePostOrder] using hfirst.reverse
  exact ⟨g, hg, ⟨List.nodup_reverse.mp hs.nodup, fun b => hflow.mem_postOrder⟩, hlast, rfl, hled,
    hback, htopological⟩

/-- A loop with a way around its body, a block that follows itself, an edge to no block, and a last
block that nothing leads to. Only the edge back to the loop's header and the block's own edge lead
back. -/
theorem postOrder_of_loop :
    let f : Function := { blocks := [{ id := ⟨0⟩, successors := [⟨1⟩] },
      { id := ⟨1⟩, successors := [⟨2⟩, ⟨3⟩, ⟨3⟩] }, { id := ⟨2⟩, successors := [⟨2⟩, ⟨3⟩] },
      { id := ⟨3⟩, successors := [⟨1⟩, ⟨9⟩] }, { id := ⟨4⟩, successors := [⟨3⟩] }] }
    ∃ g, FlowGraph.ofFunction f = .ok g ∧ g.postOrder = [⟨3⟩, ⟨2⟩, ⟨1⟩, ⟨0⟩] ∧
      ¬f.Reaches ⟨4⟩ ∧ (∃ way, Way f.Edge ⟨1⟩ ⟨3⟩ way) ∧ ∃ way, Way f.Edge ⟨2⟩ ⟨2⟩ way := by
  intro f
  obtain ⟨g, hg, ⟨hnodup, hmem⟩, -, -, -, hback, -⟩ :=
    postOrder_exact (f := f) (by decide) (by decide)
  have horder : (FlowGraph.ofFunction f).map FlowGraph.postOrder =
      .ok [⟨3⟩, ⟨2⟩, ⟨1⟩, ⟨0⟩] := by cbv
  rw [hg] at horder
  replace horder : g.postOrder = [⟨3⟩, ⟨2⟩, ⟨1⟩, ⟨0⟩] := Except.ok.inj horder
  have hreaches : ∀ b, f.Reaches b ↔ b ∈ [⟨3⟩, ⟨2⟩, ⟨1⟩, ⟨0⟩] := fun b => horder ▸ (hmem b).symm
  refine ⟨g, hg, horder, ?_, ?_, ?_⟩
  · rw [hreaches]
    decide
  · apply hback ⟨3⟩ ⟨1⟩ ((hreaches _).mpr (by decide))
      ⟨f.blocks[3], by decide, rfl, by decide, by decide⟩
    rw [horder]
    decide
  · apply hback ⟨2⟩ ⟨2⟩ ((hreaches _).mpr (by decide))
      ⟨f.blocks[2], by decide, rfl, by decide, by decide⟩
    rw [horder]
    decide

end Function

end Precedence
